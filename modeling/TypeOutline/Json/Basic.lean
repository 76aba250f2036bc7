/-!
# JSON values

Members of an object are kept in order. A number is a whole number, or the bits of a binary64
number; whole numbers keep every digit.
-/

namespace TypeOutline

/-- A number of a JSON document. -/
inductive Number where
  | whole (n : Int)
  /-- A binary64 number by its bits. -/
  | binary (bits : UInt64)
deriving Repr, DecidableEq

namespace Number

def ofFloat (x : Float) : Number := .binary x.toBits

def toFloat : Number → Float
  | whole n => Float.ofInt n
  | binary bits => Float.ofBits bits

end Number

inductive Json where
  | null
  | bool (b : Bool)
  | number (n : Number)
  | string (s : String)
  | array (items : List Json)
  | object (members : List (String × Json))
deriving Repr

namespace Json

instance : Inhabited Json := ⟨null⟩

def nat (n : Nat) : Json := number (.whole n)

/-- The value of the last member with a key. -/
def member? (key : String) : Json → Option Json
  | object ms => ms.reverse.lookup key
  | _ => none

mutual

/-- The two values are the same, members in the same order. -/
def same : Json → Json → Bool
  | null, null => true
  | bool a, bool b => a == b
  | number a, number b => a == b
  | string a, string b => a == b
  | array as, array bs => sameAll as bs
  | object as, object bs => sameMembers as bs
  | _, _ => false

def sameAll : List Json → List Json → Bool
  | [], [] => true
  | a :: as, b :: bs => same a b && sameAll as bs
  | _, _ => false

def sameMembers : List (String × Json) → List (String × Json) → Bool
  | [], [] => true
  | (k, a) :: as, (l, b) :: bs => k == l && same a b && sameMembers as bs
  | _, _ => false

end

end Json

end TypeOutline
