import Phrasebook.Text.Quoted

/-!
What can be wrong with a pattern, and why a dictionary refuses a request. Each cause is a
constructor; the wording stands in `message`.
-/

namespace Phrasebook

inductive TokenFault where
  | strayBracket
  | unterminated
  | emptyLookup
  | nestedBracket
  | emptyAlias
  | emptyContext
deriving DecidableEq

def TokenFault.reason : TokenFault → String
  | .strayBracket => "stray angle bracket"
  | .unterminated => "unterminated lookup"
  | .emptyLookup => "empty lookup"
  | .nestedBracket => "nested angle bracket"
  | .emptyAlias => "empty alias"
  | .emptyContext => "empty context name"

inductive PatternError where
  | emptyWord
  | blankInWord (text : String)
  | emptyLookup
  | noContexts (name : String)
  | badToken (token : String) (fault : TokenFault)
deriving DecidableEq

def PatternError.message : PatternError → String
  | .emptyWord => "Word is empty"
  | .blankInWord text => "Word " ++ Text.quoted text ++ " contains whitespace"
  | .emptyLookup => "Lookup declares no aliases"
  | .noContexts name => "Lookup alias '" ++ name ++ "' references no contexts"
  | .badToken token fault =>
    "Invalid pattern token " ++ Text.quoted token ++ ": " ++ fault.reason

inductive ScopeError where
  | unknownContext (lookup context : String)
  | unknownScope (name : String)
  | scopeExists (name : String)
  | removalUnsupported
  | pattern (error : PatternError)
deriving DecidableEq

def ScopeError.message : ScopeError → String
  | .unknownContext lookup context =>
    "No such context '" ++ context ++ "' (referenced by lookup '" ++ lookup ++ "')"
  | .unknownScope name => "Scope '" ++ name ++ "' does not exist"
  | .scopeExists name => "Scope '" ++ name ++ "' already exists"
  | .removalUnsupported => "Pattern removal is not supported"
  | .pattern error => error.message

end Phrasebook
