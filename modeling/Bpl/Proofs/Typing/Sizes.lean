import Bpl.Proofs.Machine.Words
import Bpl.Proofs.Typing.Program

namespace Bpl

/-- The sum of two words, where it is a word. -/
def checkedAdd? (x y : Int64) : Option Int64 :=
  if (x + y).toInt = x.toInt + y.toInt then some (x + y) else none

/-- The product of two words, where it is a word. -/
def checkedMul? (x y : Int64) : Option Int64 :=
  if (x * y).toInt = x.toInt * y.toInt then some (x * y) else none

variable {x y z : Int64}

theorem checkedAdd?_eq_some : checkedAdd? x y = some z ↔ z.toInt = x.toInt + y.toInt := by
  constructor
  · intro h
    obtain ⟨he, h⟩ := Option.ite_none_right_eq_some.1 h
    rw [← Option.some.inj h, he]
  · intro h
    have hz : (x + y).toInt = x.toInt + y.toInt :=
      Int64.toInt_add_of_fits (h ▸ z.le_toInt) (h ▸ z.toInt_lt)
    rw [checkedAdd?, if_pos hz, Int64.toInt_inj.1 (hz.trans h.symm)]

theorem checkedMul?_eq_some : checkedMul? x y = some z ↔ z.toInt = x.toInt * y.toInt := by
  constructor
  · intro h
    obtain ⟨he, h⟩ := Option.ite_none_right_eq_some.1 h
    rw [← Option.some.inj h, he]
  · intro h
    have hz : (x * y).toInt = x.toInt * y.toInt :=
      Int64.toInt_mul_of_fits (h ▸ z.le_toInt) (h ▸ z.toInt_lt)
    rw [checkedMul?, if_pos hz, Int64.toInt_inj.1 (hz.trans h.symm)]

namespace Ty

theorem toInt_toInt64 {length : UInt64} (h : length.toNat ≤ maxSize) :
    length.toInt64.toInt = length.toNat := by
  have hlt : length.toNat < 2 ^ 63 := Nat.lt_succ_of_le h
  rw [Int64.toInt_eq_bmod]
  change (length.toNat : Int).bmod (2 ^ 64) = length.toNat
  exact Int.bmod_eq_of_le (by omega) (by omega)

theorem toInt_ofNat {n : Nat} (h : n ≤ maxSize) : (Int64.ofNat n).toInt = n :=
  Int64.toInt_ofNat_of_lt (Nat.lt_succ_of_le h)

theorem toInt_le_maxSize (x : Int64) : x.toInt ≤ maxSize :=
  Int.lt_add_one_iff.1 x.toInt_lt

/-- Bytes of an array by way of machine words: its length as a word, times the size of a word,
where neither of the two steps overflows. -/
def checkedBytes? (length : UInt64) : Option Int64 :=
  if length.toNat ≤ maxSize then checkedMul? length.toInt64 8 else none

/-- The size of an array is what machine words make of it. -/
theorem size?_array (element : Ty) (length : UInt64) :
    (array element length).size? = (checkedBytes? length).map (·.toInt.toNat) := by
  by_cases hs : wordSize * length.toNat ≤ maxSize
  · have hl : length.toNat ≤ maxSize := (Nat.le_mul_of_pos_left _ (by decide)).trans hs
    have hmul : checkedMul? length.toInt64 8 = some (Int64.ofNat (wordSize * length.toNat)) := by
      rw [checkedMul?_eq_some, toInt_ofNat hs, toInt_toInt64 hl, Int64.toInt_eight, Nat.mul_comm]
      rfl
    rw [size?, if_pos hs, checkedBytes?, if_pos hl, hmul, Option.map_some, toInt_ofNat hs,
      Int.toNat_natCast]
  · rw [size?, if_neg hs, checkedBytes?]
    split
    · next hl =>
      cases hm : checkedMul? length.toInt64 8 with
      | none => rfl
      | some z =>
        have hz := toInt_le_maxSize z
        rw [checkedMul?_eq_some.1 hm, toInt_toInt64 hl, Int64.toInt_eight] at hz
        rw [wordSize] at hs
        omega
    · rfl

end Ty

/-- The bytes of variables, added up in machine words one after the other. -/
def Variable.checkedTotal? (total : Int64) (vs : List Variable) : Option Int64 :=
  vs.foldlM (fun total v => checkedAdd? total (Int64.ofNat v.ty.size)) total

/-- Variables pass a limit on what machine words add up to if their exact sum does. -/
theorem Variable.any_checkedTotal? {limit : Nat} (hlimit : limit ≤ Ty.maxSize) (vs : List Variable)
    {total : Int64} (ht : 0 ≤ total.toInt) :
    (checkedTotal? total vs).any (·.toInt ≤ (limit : Int)) = true ↔
      total.toInt + totalSize vs ≤ limit := by
  induction vs generalizing total with
  | nil => simp [checkedTotal?, totalSize]
  | cons v vs ih =>
    have hsum : totalSize (v :: vs) = v.ty.size + totalSize vs := rfl
    have hv := Ty.toInt_ofNat v.ty.size_le
    rw [checkedTotal?, List.foldlM_cons, hsum, Nat.cast_add]
    cases hadd : checkedAdd? total (Int64.ofNat v.ty.size) with
    | some next =>
      have hnext := checkedAdd?_eq_some.1 hadd
      rw [hv] at hnext
      rw [← add_assoc, ← hnext]
      exact ih (by omega)
    | none =>
      refine iff_of_false Bool.false_ne_true fun h => ?_
      have hlt : total.toInt + v.ty.size < 2 ^ 63 := by
        have : (Ty.maxSize : Int) < 2 ^ 63 := by decide
        omega
      have hexact : (total + Int64.ofNat v.ty.size).toInt =
          total.toInt + (Int64.ofNat v.ty.size).toInt :=
        Int64.toInt_add_of_fits (by omega) (hv ▸ hlt)
      rw [checkedAdd?_eq_some.2 hexact] at hadd
      cases hadd

namespace Typing

open Logged

theorem Locals.valid_of_foldlM {vs : List Variable} {ls ls' : Locals}
    (h : vs.foldlM Locals.declare ls = .ok ls') (hv : ∀ v ∈ ls.declared, v.Valid) :
    ∀ v ∈ ls'.declared, v.Valid := by
  induction vs generalizing ls with
  | nil =>
    cases h
    exact hv
  | cons v vs ih =>
    rw [List.foldlM_cons, Except.bind_eq_ok_iff] at h
    obtain ⟨ls₁, hd, h⟩ := h
    obtain ⟨hvalid, _, hl⟩ := declare_eq_ok.1 hd
    refine ih h ?_
    rw [hl, List.forall_mem_append]
    exact ⟨hv, List.forall_mem_singleton.2 hvalid⟩

mutual

/-- A check declares valid locals only, whatever else it meets. -/
theorem valid_of_stmt {ctx : Context} {ls ls' : Locals} {s s' : Stmt}
    (h : (stmt ctx ls s).outcome = .ok (s', ls')) (hv : ∀ v ∈ ls.declared, v.Valid) :
    ∀ v ∈ ls'.declared, v.Valid := by
  cases s with
  | compound l b =>
    simp only [stmt, outcome_bind_eq_ok, outcome_pure_eq_ok] at h
    obtain ⟨⟨b', ls₁⟩, hb, h⟩ := h
    cases h
    exact valid_of_block hb hv
  | ifThen l c yes =>
    simp only [stmt, outcome_bind_eq_ok, outcome_pure_eq_ok] at h
    obtain ⟨_, _, _, _, ⟨yes', ls₁⟩, hy, h⟩ := h
    cases h
    exact valid_of_stmt hy hv
  | ifElse l c yes no =>
    simp only [stmt, outcome_bind_eq_ok, outcome_pure_eq_ok] at h
    obtain ⟨_, _, _, _, ⟨yes', ls₁⟩, hy, ⟨no', ls₂⟩, hn, h⟩ := h
    cases h
    exact valid_of_stmt hn (valid_of_stmt hy hv)
  | whileDo l c body =>
    simp only [stmt, outcome_bind_eq_ok, outcome_pure_eq_ok] at h
    obtain ⟨_, _, _, _, ⟨body', ls₁⟩, hb, h⟩ := h
    cases h
    exact valid_of_stmt hb hv
  | ret l value =>
    simp only [stmt, outcome_bind_eq_ok, outcome_pure_eq_ok] at h
    obtain ⟨_, _, h⟩ := h
    cases h
    exact hv
  | expr l e =>
    simp only [stmt, outcome_bind_eq_ok, outcome_pure_eq_ok] at h
    obtain ⟨_, _, h⟩ := h
    cases h
    exact hv
  | write l e =>
    simp only [stmt, outcome_bind_eq_ok, outcome_pure_eq_ok] at h
    obtain ⟨_, _, _, _, h⟩ := h
    cases h
    exact hv
  | writeln l =>
    simp only [stmt, outcome_pure_eq_ok] at h
    cases h
    exact hv

theorem valid_of_block {ctx : Context} {ls ls' : Locals} {b b' : Block}
    (h : (block ctx ls b).outcome = .ok (b', ls')) (hv : ∀ v ∈ ls.declared, v.Valid) :
    ∀ v ∈ ls'.declared, v.Valid := by
  cases b with
  | mk l vs ss =>
    simp only [block, outcome_bind_eq_ok, outcome_ofExcept_eq_ok, outcome_pure_eq_ok] at h
    obtain ⟨ls₁, hd, ⟨ss', ls₂⟩, hs, h⟩ := h
    cases h
    exact valid_of_stmts hs (Locals.valid_of_foldlM hd hv)

theorem valid_of_stmts {ctx : Context} {ls ls' : Locals} {ss ss' : List Stmt}
    (h : (stmts ctx ls ss).outcome = .ok (ss', ls')) (hv : ∀ v ∈ ls.declared, v.Valid) :
    ∀ v ∈ ls'.declared, v.Valid := by
  cases ss with
  | nil =>
    simp only [stmts, outcome_pure_eq_ok] at h
    cases h
    exact hv
  | cons s ss =>
    simp only [stmts, outcome_bind_eq_ok, outcome_pure_eq_ok] at h
    obtain ⟨⟨s', ls₁⟩, hs, ⟨ss', ls₂⟩, hss, h⟩ := h
    cases h
    exact valid_of_stmts hss (valid_of_stmt hs hv)

end

/-- An array is valid if it has an element and the exact product with the size of a word fits. -/
theorem validate_array {v : Variable} {element : Ty} {length : UInt64}
    (hty : v.ty = .array element length) :
    validate v = .ok () ↔ 1 ≤ length.toNat ∧ 8 * length.toNat ≤ 2 ^ 31 - 1 := by
  rw [validate_eq_ok]
  constructor
  · intro h
    have hfits := h.fits
    rw [hty] at hfits
    have hne : length.toNat ≠ 0 := fun h0 => h.notEmpty _ _ hty (UInt64.toNat_inj.1 h0)
    exact ⟨Nat.pos_of_ne_zero hne, hfits⟩
  · rintro ⟨hpos, hfits⟩
    refine ⟨by rw [hty]; nofun, fun element' length' h => ?_, by rw [hty]; exact hfits⟩
    cases hty.symm.trans h
    rintro rfl
    cases hpos

/-- Where parameters and body of a function check, the rest of the check only asks how large its
locals are. -/
theorem function_outcome {globals scope : Scope} {f : Function} {body : Block} {ls : Locals}
    (hp : params .empty 0 f.params = .ok scope)
    (hb : (block ⟨globals, f.name, f.result⟩ ⟨scope, []⟩ f.body).outcome = .ok (body, ls)) :
    (function globals f).outcome =
      if (ls.declared.map (·.ty.bytes)).sum ≤ Ty.maxObjectSize then
        .ok { f with body := body, locals := ls.declared }
      else .error (.diagnostic (.semantic f.location (.frameTooLarge f.name))) := by
  have hv : ∀ v ∈ ls.declared, v.Valid := valid_of_block hb (by simp)
  rw [function, outcome_bind, outcome_ofExcept, hp]
  change Logged.outcome (_ >>= _) = _
  rw [outcome_bind, hb]
  change Logged.outcome (ensure (Variable.totalSize ls.declared ≤ Ty.maxObjectSize) _ _ >>= _) = _
  rw [outcome_bind, totalSize_eq hv]
  by_cases hfit : (ls.declared.map (·.ty.bytes)).sum ≤ Ty.maxObjectSize
  · rw [if_pos hfit, ensure, if_pos (decide_eq_true hfit)]
    rfl
  · rw [if_neg hfit, ensure, if_neg (by simpa using hfit)]
    rfl

end Typing

end Bpl
