namespace Bpl

/-- Types of the language. The length of an array is a machine word. -/
inductive Ty where
  | int
  | string
  | void
  | pointer (base : Ty)
  | array (element : Ty) (length : UInt64)
  | function (params : List Ty) (result : Ty)
  deriving Inhabited

namespace Ty

mutual

/-- Structural equality as a test. -/
def same : Ty → Ty → Bool
  | int, int => true
  | string, string => true
  | void, void => true
  | pointer t, pointer u => same t u
  | array t m, array u n => m == n && same t u
  | function ps r, function qs s => sameList ps qs && same r s
  | _, _ => false

def sameList : List Ty → List Ty → Bool
  | [], [] => true
  | t :: ts, u :: us => same t u && sameList ts us
  | _, _ => false

end

mutual

theorem same_iff (t u : Ty) : same t u = true ↔ t = u := by
  cases t <;> cases u <;> simp [same]
  case pointer.pointer t u => exact same_iff t u
  case array.array t m u n => simp [same_iff t u, and_comm]
  case function.function ps r qs s => simp [sameList_iff ps qs, same_iff r s]

theorem sameList_iff (ts us : List Ty) : sameList ts us = true ↔ ts = us := by
  cases ts <;> cases us <;> simp [sameList]
  case cons.cons t ts u us => simp [same_iff t u, sameList_iff ts us]

end

instance : DecidableEq Ty := fun t u => decidable_of_iff _ (same_iff t u)

/-- Every scalar takes one machine word. -/
def wordSize : Nat := 8

/-- The largest object, and the largest frame, that a 32-bit displacement reaches. -/
def maxObjectSize : Nat := 0x7fffffff

/-- The largest size that can be told. -/
def maxSize : Nat := 0x7fffffffffffffff

def isInteger : Ty → Bool
  | int => true
  | _ => false

def isPointer : Ty → Bool
  | pointer _ => true
  | _ => false

def isArray : Ty → Bool
  | array _ _ => true
  | _ => false

def isVoid : Ty → Bool
  | void => true
  | _ => false

def isFunction : Ty → Bool
  | function _ _ => true
  | _ => false

/-- Values that can be compared with each other. -/
def isComparable : Ty → Bool
  | int | string | pointer _ => true
  | _ => false

/-- What a pointer points to and an array holds. -/
def base? : Ty → Option Ty
  | pointer t | array t _ => some t
  | _ => none

/-- Bytes that a variable takes, unless they exceed `maxSize`. -/
def size? : Ty → Option Nat
  | array _ n => if wordSize * n.toNat ≤ maxSize then some (wordSize * n.toNat) else none
  | void | function _ _ => some 0
  | int | string | pointer _ => some wordSize

/-- Bytes that a variable takes, or `maxSize` where they exceed it. -/
def size (t : Ty) : Nat :=
  t.size?.getD maxSize

theorem size_le (t : Ty) : t.size ≤ maxSize := by
  cases t
  case array _ n =>
    by_cases h : wordSize * n.toNat ≤ maxSize <;> simp [size, size?, h]
  all_goals simp [size, size?, wordSize, maxSize]

mutual

/-- The spelling of a type: modifiers follow, and a function lists its parameters after its
result. -/
def text : Ty → String
  | int => "int"
  | string => "string"
  | void => "void"
  | pointer t => text t ++ "*"
  | array t n => text t ++ "[" ++ toString n.toNat ++ "]"
  | function [] r => text r ++ "(void)"
  | function (p :: ps) r => text r ++ "(" ++ text p ++ moreText ps ++ ")"

def moreText : List Ty → String
  | [] => ""
  | p :: ps => ", " ++ text p ++ moreText ps

end

end Ty

end Bpl
