import Mathlib
import Bpl.Lowering.Program

namespace Bpl.Lowering

open Asm

variable {α β : Type}

theorem run_bind_eq_ok {x : Lower α} {f : α → Lower β} {l : Labels} {r : β × Labels} :
    (x >>= f).run l = .ok r ↔ ∃ a l₁, x.run l = .ok (a, l₁) ∧ (f a).run l₁ = .ok r := by
  rw [StateT.run_bind]
  cases x.run l with
  | error e =>
    constructor
    · intro h
      cases h
    · rintro ⟨_, _, h, _⟩
      cases h
  | ok p =>
    constructor
    · intro h
      exact ⟨p.1, p.2, rfl, h⟩
    · rintro ⟨_, _, h, hr⟩
      cases h
      exact hr

theorem run_pure_eq_ok {a b : α} {l l' : Labels} :
    (pure a : Lower α).run l = .ok (b, l') ↔ b = a ∧ l' = l := by
  constructor
  · intro h
    cases h
    exact ⟨rfl, rfl⟩
  · rintro ⟨rfl, rfl⟩
    rfl

theorem run_throw_eq_ok {f : Fault} {l : Labels} {r : α × Labels} :
    (throw f : Lower α).run l = .ok r ↔ False := by
  constructor
  · intro h
    cases h
  · exact False.elim

/-- The numbers under which a piece of code stands. -/
def numbers (c : Code) : List Nat :=
  c.filterMap fun
    | .label (.numbered n) => some n
    | _ => none

@[simp] theorem numbers_append (c d : Code) : numbers (c ++ d) = numbers c ++ numbers d :=
  List.filterMap_append

@[simp] theorem numbers_code (is : List Instr) : numbers (code is) = [] := by
  simp [numbers, code]

@[simp] theorem numbers_nil : numbers [] = [] := rfl

@[simp] theorem numbers_cons_numbered (n : Nat) (c : Code) :
    numbers (.label (.numbered n) :: c) = n :: numbers c := rfl

@[simp] theorem numbers_cons_function (x : String) (c : Code) :
    numbers (.label (.function x) :: c) = numbers c := rfl

/-- Labels of which the string literals have one number each, and one for equal contents. -/
structure Labels.Sane (l : Labels) : Prop where
  numbers : (l.strings.map Prod.fst).Nodup
  contents : (l.strings.map Prod.snd).Nodup
  below : ∀ p ∈ l.strings, p.1 < l.next

/-- The numbers that a piece of code, the string literals and the trap stand under. -/
def Labels.used (l : Labels) (c : Code) : List Nat :=
  numbers c ++ l.strings.map Prod.fst ++ l.trap.toList

/-- What the generation of a piece of code does to the labels in use: numbers go up, and those in
the code and that of the trap are drawn once. If the numbers in use before it are all those below
the next free one, so are those after it. -/
structure Draws (l : Labels) (c : Code) (l' : Labels) : Prop where
  next : l.next ≤ l'.next
  strings : l.strings ⊆ l'.strings
  trap : ∀ t, l.trap = some t → l'.trap = some t
  range : ∀ n ∈ numbers c, l.next ≤ n ∧ n < l'.next
  nodup : (numbers c).Nodup
  trap_fresh : ∀ t, l'.trap = some t →
    l.trap = some t ∨ l.next ≤ t ∧ t < l'.next ∧ t ∉ numbers c
  sane : l.Sane → l'.Sane
  exact : ∀ b, (l.used b).Perm (.range l.next) → (l'.used (b ++ c)).Perm (.range l'.next)

namespace Draws

variable {l l₁ l' : Labels} {c d : Code}

theorem refl (h : numbers c = []) : Draws l c l where
  next := le_rfl
  strings := List.Subset.refl _
  trap := fun _ h => h
  range := by simp [h]
  nodup := by simp [h]
  trap_fresh := fun _ h => .inl h
  sane := id
  exact := by simp [Labels.used, h]

theorem trans (h₁ : Draws l c l₁) (h₂ : Draws l₁ d l') : Draws l (c ++ d) l' where
  next := h₁.next.trans h₂.next
  strings := List.Subset.trans h₁.strings h₂.strings
  trap := fun t h => h₂.trap t (h₁.trap t h)
  -- the numbers of the two pieces are below and above that where the second begins
  range := by
    intro n hn
    have hl := h₁.next
    have hr := h₂.next
    rcases List.mem_append.1 (numbers_append c d ▸ hn) with hn | hn
    · have := h₁.range n hn
      omega
    · have := h₂.range n hn
      omega
  nodup := by
    rw [numbers_append, List.nodup_append]
    refine ⟨h₁.nodup, h₂.nodup, fun m hm n hn => ?_⟩
    have := h₁.range m hm
    have := h₂.range n hn
    omega
  trap_fresh := by
    intro t ht
    have hl := h₁.next
    have hr := h₂.next
    rw [numbers_append, List.mem_append]
    rcases h₂.trap_fresh t ht with ht | ⟨h, h', hd⟩
    · rcases h₁.trap_fresh t ht with ht | ⟨h, h', hc⟩
      · exact .inl ht
      · refine .inr ⟨h, by omega, ?_⟩
        rintro (hm | hm)
        · exact hc hm
        · have := h₂.range t hm
          omega
    · refine .inr ⟨by omega, h', ?_⟩
      rintro (hm | hm)
      · have := h₁.range t hm
        omega
      · exact hd hm
  sane := fun h => h₂.sane (h₁.sane h)
  exact := by
    intro b h
    rw [← List.append_assoc]
    exact h₂.exact (b ++ c) (h₁.exact b h)

/-- Only the numbers in a piece of code matter, in whatever order. -/
theorem permute (h : Draws l c l') (hn : (numbers c).Perm (numbers d)) : Draws l d l' where
  next := h.next
  strings := h.strings
  trap := h.trap
  range := fun n hd => h.range n (hn.mem_iff.2 hd)
  nodup := hn.nodup_iff.1 h.nodup
  trap_fresh := by
    intro t ht
    rw [← hn.mem_iff]
    exact h.trap_fresh t ht
  sane := h.sane
  exact := by
    intro b hb
    refine List.Perm.trans ?_ (h.exact b hb)
    simp only [Labels.used, numbers_append]
    exact ((hn.symm.append_left _).append_right _).append_right _

theorem recount (h : Draws l c l') (hn : ∀ n, (numbers c).count n = (numbers d).count n) :
    Draws l d l' :=
  h.permute (List.perm_iff_count.2 hn)

theorem congr (h : Draws l c l') (hn : numbers c = numbers d) : Draws l d l' :=
  h.permute (hn ▸ List.Perm.refl _)

end Draws

theorem run_newLabel_eq_ok {l l' : Labels} {n : Nat} :
    newLabel.run l = .ok (n, l') ↔ n = l.next ∧ l' = { l with next := l.next + 1 } := by
  constructor
  · intro h
    cases h
    exact ⟨rfl, rfl⟩
  · rintro ⟨rfl, rfl⟩
    rfl

theorem Draws.newLabel {l l' : Labels} {n : Nat} (h : newLabel.run l = .ok (n, l')) :
    Draws l [.label (.numbered n)] l' := by
  obtain ⟨rfl, rfl⟩ := run_newLabel_eq_ok.1 h
  refine ⟨Nat.le_succ _, List.Subset.refl _, fun _ h => h, by simp, by simp, fun _ h => .inl h,
    fun h => ⟨h.numbers, h.contents, fun p hp => ?_⟩, fun b h => ?_⟩
  · exact (h.below p hp).trans (Nat.lt_succ_self _)
  · rw [List.range_succ]
    refine List.Perm.trans ?_ (h.append_right _)
    simp only [Labels.used, numbers_append, numbers_cons_numbered, numbers_nil]
    rw [List.append_assoc, List.append_assoc, List.append_assoc]
    exact (List.perm_append_comm.append_left _).trans (by simp)

theorem Draws.stringLabel {l l' : Labels} {s : String} {n : Nat}
    (h : (stringLabel s).run l = .ok (n, l')) : Draws l [] l' ∧ (n, s) ∈ l'.strings := by
  simp only [Lowering.stringLabel, run_bind_eq_ok] at h
  obtain ⟨_, _, hg, h⟩ := h
  cases hg
  split at h
  · next m t hf =>
    obtain ⟨rfl, rfl⟩ := run_pure_eq_ok.1 h
    have ht : t = s := by simpa using List.find?_some hf
    exact ⟨.refl rfl, ht ▸ List.mem_of_find?_eq_some hf⟩
  · next hf =>
    simp only [run_bind_eq_ok, run_newLabel_eq_ok, run_pure_eq_ok] at h
    obtain ⟨m, _, ⟨rfl, rfl⟩, _, _, hm, rfl, rfl⟩ := h
    cases hm
    refine ⟨⟨Nat.le_succ _, List.subset_append_left _ _, fun _ h => h, by simp, by simp,
      fun _ h => .inl h, fun h => ⟨?_, ?_, ?_⟩, fun b h => ?_⟩,
      List.mem_append_right _ (by simp)⟩
    · simp only [List.map_append, List.map_cons, List.map_nil]
      refine List.nodup_append.2 ⟨h.numbers, by simp, ?_⟩
      rintro a ha b hb rfl
      obtain ⟨p, hp, rfl⟩ := List.mem_map.1 ha
      have := h.below p hp
      simp at hb
      omega
    · simp only [List.map_append, List.map_cons, List.map_nil]
      refine List.nodup_append.2 ⟨h.contents, by simp, ?_⟩
      rintro a ha b hb rfl
      obtain ⟨p, hp, rfl⟩ := List.mem_map.1 ha
      have := List.find?_eq_none.1 hf p hp
      simp_all
    · intro p hp
      rcases List.mem_append.1 hp with hp | hp
      · exact (h.below p hp).trans (Nat.lt_succ_self _)
      · simp at hp
        simp [hp]
    · rw [List.range_succ]
      refine List.Perm.trans ?_ (h.append_right _)
      simp only [Labels.used, List.append_nil, List.map_append, List.map_cons, List.map_nil]
      rw [List.append_assoc, List.append_assoc, List.append_assoc, List.append_assoc]
      exact (List.perm_append_comm.append_left _).append_left _

theorem Draws.trapLabel {l l' : Labels} {n : Nat} (h : trapLabel.run l = .ok (n, l')) :
    Draws l [] l' ∧ l'.trap = some n := by
  simp only [Lowering.trapLabel, run_bind_eq_ok] at h
  obtain ⟨_, _, hg, h⟩ := h
  cases hg
  split at h
  · next m hm =>
    obtain ⟨rfl, rfl⟩ := run_pure_eq_ok.1 h
    exact ⟨.refl rfl, hm⟩
  · next hn =>
    simp only [run_bind_eq_ok, run_newLabel_eq_ok, run_pure_eq_ok] at h
    obtain ⟨m, _, ⟨rfl, rfl⟩, _, _, hm, rfl, rfl⟩ := h
    cases hm
    refine ⟨⟨Nat.le_succ _, List.Subset.refl _, fun _ h => by simp [hn] at h, by simp, by simp,
      fun t ht => .inr ?_, fun h => ⟨h.numbers, h.contents, fun p hp => ?_⟩, fun b h => ?_⟩, rfl⟩
    · cases ht
      simp
    · exact (h.below p hp).trans (Nat.lt_succ_self _)
    · rw [List.range_succ]
      refine List.Perm.trans ?_ (h.append_right _)
      simp [Labels.used, hn]

end Bpl.Lowering
