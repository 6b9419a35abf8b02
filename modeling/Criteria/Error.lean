/-!
What can go wrong: an operator that does not exist, a foreign value without a counterpart, and what
the host raises by itself.
-/

namespace Criteria
set_option autoImplicit false

inductive Error where
  | unknownOperator (symbol : String)
  | unsupportedValue (typeName : String)
  | integerTooLarge
  | raised (exception : String) (message : String)
  deriving DecidableEq, Repr

def Error.message : Error → String
  | unknownOperator symbol => "Unknown operator: " ++ symbol
  | unsupportedValue typeName => "Unsupported value type: " ++ typeName
  | integerTooLarge => "int too large to convert to float"
  | raised _ message => message

/-- The class of the exception that an error is in the host. -/
def Error.exception : Error → String
  | unknownOperator _ => "ValueError"
  | unsupportedValue _ => "TypeError"
  | integerTooLarge => "OverflowError"
  | raised exception _ => exception

end Criteria
