import Scriptlet.Number

/-! What an expression evaluates to, and what a token of a literal stands for. -/
namespace Scriptlet

inductive Value where
  | nil
  | bool (b : Bool)
  | number (x : Float)
  | string (s : String)
deriving DecidableEq, Inhabited

namespace Value

/-- Only `nil` and `false` are not true; zero and the empty string are. -/
def truthy : Value → Bool
  | .nil => false
  | .bool b => b
  | _ => true

def number? : Value → Option Float
  | .number x => some x
  | _ => none

/-- Values of different kinds differ. Numbers compare as numbers, so the two zeros are equal and a
value that is not a number differs from itself. -/
def equal : Value → Value → Bool
  | .nil, .nil => true
  | .bool a, .bool b => a == b
  | .number x, .number y => x == y
  | .string s, .string t => s == t
  | _, _ => false

def write (infinity : String) : Value → String
  | .nil => "nil"
  | .bool true => "true"
  | .bool false => "false"
  | .number x => Number.text infinity x
  | .string s => s

/-- What `print` and an echo show. -/
def text : Value → String :=
  write "Infinity"

/-- What the listings of tokens and trees show. -/
def listing : Value → String :=
  write "inf"

end Value
end Scriptlet
