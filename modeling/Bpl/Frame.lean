import Bpl.Event

namespace Bpl

/-- Where the parameters and locals of a function are, in bytes from the frame pointer, and the
bytes that its locals take. -/
structure Frame where
  params : List Int
  locals : List Int
  size : Nat
  isMain : Bool
  deriving DecidableEq

namespace Frame

/-- Arguments are pushed from left to right, and on top of them the frame pointer of the caller
and the return address: the last of `count` parameters is two words up. -/
def paramOffset (count index : Nat) : Int :=
  Ty.wordSize * (count + 1 - index : Int)

/-- Locals lie one below the other, under `used` bytes that are taken already. -/
def localOffsets (used : Nat) : List Variable → List Int
  | [] => []
  | v :: vs => -((used + v.ty.size : Nat) : Int) :: localOffsets (used + v.ty.size) vs

theorem length_localOffsets (used : Nat) (vs : List Variable) :
    (localOffsets used vs).length = vs.length := by
  induction vs generalizing used with
  | nil => rfl
  | cons v vs ih => simp [localOffsets, ih]

def layout (f : Function) : Frame where
  params := (List.range f.params.length).map (paramOffset f.params.length)
  locals := localOffsets 0 f.locals
  size := Variable.totalSize f.locals
  isMain := f.isMain

/-- What is reported about the frame of a function. -/
def events (f : Function) : List Event :=
  let frame := layout f
  (f.params.zip frame.params).map (fun (v, offset) => .parameterAt f.name v.name offset) ++
    (f.locals.zip frame.locals).map (fun (v, offset) => .localAt f.name v.name offset) ++
    [.frameSize f.name frame.size]

end Frame

end Bpl
