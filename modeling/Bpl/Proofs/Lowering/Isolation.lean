import Bpl.Compile
import Bpl.Proofs.Lowering.Labels
import Bpl.Proofs.Lowering.Renumbering
import Bpl.Proofs.Typing.Decision

/-- A relation that is unique on both sides, and bounded on the right, is part of an injective map:
what is related to nothing is sent beyond the bound. -/
theorem Relator.BiUnique.exists_injective {R : Nat → Nat → Prop} (h : Relator.BiUnique R)
    {bound : Nat} (hbound : ∀ m n, R m n → n < bound) :
    ∃ ρ : Nat → Nat, Function.Injective ρ ∧ ∀ m n, R m n → ρ m = n := by
  have hvalue : ∀ m, ∃ k, (∀ n, R m n → k = n) ∧ (R m k ∨ k = bound + m) := by
    intro m
    by_cases hm : ∃ n, R m n
    · obtain ⟨n, hn⟩ := hm
      exact ⟨n, fun n' hn' => h.2 hn hn', .inl hn⟩
    · exact ⟨bound + m, fun n hn => absurd ⟨n, hn⟩ hm, .inr rfl⟩
  choose ρ hρ hfree using hvalue
  refine ⟨ρ, ?_, hρ⟩
  intro m m' heq
  have hle := fun k hk => hbound k (ρ k) hk
  rcases hfree m with hm | hm
  · rcases hfree m' with hm' | hm'
    · rw [← heq] at hm'
      exact h.1 hm hm'
    · have := hle m hm
      omega
  · rcases hfree m' with hm' | hm'
    · have := hle m' hm'
      omega
    · omega

namespace Bpl

open Asm Lowering

/-- What a number stands for in a function: a place in its code, a string literal, or the trap. -/
inductive Role where
  | place (k : Nat)
  | string (s : String)
  | trap

/-- What the numbers that the code of a function may mention stand for. -/
def Assembly.roles (a : Assembly) (c : Code) : List (Role × Nat) :=
  (numbers c).zipIdx.map (fun (n, k) => (.place k, n)) ++
    (a.strings.map (fun (n, s) => (.string s, n)) ++ a.trap.toList.map fun t => (.trap, t))

variable {a b : Assembly} {c d : Code}

theorem mem_roles_place {k n : Nat} : (.place k, n) ∈ a.roles c ↔ (numbers c)[k]? = some n := by
  simp [Assembly.roles, List.mk_mem_zipIdx_iff_getElem?]

theorem mem_roles_string {s : String} {n : Nat} :
    (.string s, n) ∈ a.roles c ↔ (n, s) ∈ a.strings := by
  simp [Assembly.roles]

theorem mem_roles_trap {n : Nat} : (.trap, n) ∈ a.roles c ↔ a.trap = some n := by
  simp [Assembly.roles]

/-- No number stands for two things in the code of a function, and no thing has two numbers. -/
structure Numbered (a : Assembly) (c : Code) : Prop where
  numbers : ((a.roles c).map Prod.snd).Nodup
  roles : ((a.roles c).map Prod.fst).Nodup

/-- The numbers `m` and `n` stand for the same in two pieces of code. -/
def Corresponds (b : Assembly) (d : Code) (a : Assembly) (c : Code) (m n : Nat) : Prop :=
  ∃ role, (role, m) ∈ b.roles d ∧ (role, n) ∈ a.roles c

theorem Numbered.role_unique (h : Numbered a c) {role role' : Role} {n : Nat}
    (hr : (role, n) ∈ a.roles c) (hr' : (role', n) ∈ a.roles c) : role = role' :=
  congrArg Prod.fst (List.inj_on_of_nodup_map h.numbers hr hr' rfl)

theorem Numbered.number_unique (h : Numbered a c) {role : Role} {n n' : Nat}
    (hn : (role, n) ∈ a.roles c) (hn' : (role, n') ∈ a.roles c) : n = n' :=
  congrArg Prod.snd (List.inj_on_of_nodup_map h.roles hn hn' rfl)

theorem Numbered.biUnique (hd : Numbered b d) (hc : Numbered a c) :
    Relator.BiUnique (Corresponds b d a c) := by
  constructor
  · intro m m' n ⟨role, hm, hn⟩ ⟨role', hm', hn'⟩
    obtain rfl := hc.role_unique hn hn'
    exact hd.number_unique hm hm'
  · intro m n n' ⟨role, hm, hn⟩ ⟨role', hm', hn'⟩
    obtain rfl := hd.role_unique hm hm'
    exact hc.number_unique hn hn'

/-- The numbers of two pieces of code that stand for the same correspond under an injective map. -/
theorem Numbered.exists_renumbering (hd : Numbered b d) (hc : Numbered a c) :
    ∃ ρ : Nat → Nat, Function.Injective ρ ∧
      ∀ role m n, (role, m) ∈ b.roles d → (role, n) ∈ a.roles c → ρ m = n := by
  obtain ⟨bound, hrange⟩ := Finset.exists_nat_subset_range ((a.roles c).map Prod.snd).toFinset
  have hbound : ∀ m n, Corresponds b d a c m n → n < bound := by
    intro m n ⟨role, _, hn⟩
    have hmem := hrange (List.mem_toFinset.2 (List.mem_map_of_mem hn))
    exact Finset.mem_range.1 hmem
  obtain ⟨ρ, hinj, hρ⟩ := (hd.biUnique hc).exists_injective hbound
  exact ⟨ρ, hinj, fun role m n hm hn => hρ m n ⟨role, hm, hn⟩⟩

/-- The code of a function is the same in two assemblies, but for the numbers. -/
theorem Lowering.EmitsFunction.exists_renumbered {f : Function} (hd : Numbered b d)
    (hc : Numbered a c) (jd : EmitsFunction b f d) (jc : EmitsFunction a f c) :
    ∃ ρ : Nat → Nat, Function.Injective ρ ∧ Renumbers ρ b a ∧ c = renumbered ρ d := by
  obtain ⟨ρ, hinj, hρ⟩ := hd.exists_renumbering hc
  have hr : Renumbers ρ b a := by
    constructor
    · intro m n s hm hn
      exact hρ (.string s) m n (mem_roles_string.2 hm) (mem_roles_string.2 hn)
    · intro m n hm hn
      exact hρ .trap m n (mem_roles_trap.2 hm) (mem_roles_trap.2 hn)
  -- the code agrees if the labels in it do, and these go with each other by their places
  have h := jd.agree hr jc
  have hnumbers : numbers c = (numbers d).map ρ := by
    apply List.ext_getElem
    · rw [h.length, List.length_map]
    · intro k hk hk'
      rw [List.length_map] at hk'
      have hplace := hρ (.place k) _ _ (mem_roles_place.2 (List.getElem?_eq_getElem hk'))
        (mem_roles_place.2 (List.getElem?_eq_getElem hk))
      rw [List.getElem_map, hplace]
  exact ⟨ρ, hinj, hr, h.eq hnumbers⟩

/-- A function has its own numbers, and shares those of the strings and the trap. -/
theorem numbered_of_lower {p : Program} (h : p.lower = .ok a) (hc : c ∈ a.functions) :
    Numbered a c := by
  obtain ⟨l, hrun, hs, ht, _⟩ := exists_run_of_lower h
  have hdraws := (run_functions hrun).1
  have hexact := hdraws.exact [] (by simp [Labels.used, Labels.empty])
  have hsane := hdraws.sane
    ⟨by simp [Labels.empty], by simp [Labels.empty], by simp [Labels.empty]⟩
  have hcode : (numbers c).Sublist (numbers a.functions.flatten) :=
    (List.sublist_flatten_of_mem hc).filterMap _
  constructor
  · have hused : (numbers a.functions.flatten ++ (a.strings.map Prod.fst ++
        a.trap.toList)).Nodup := by
      rw [hs, ht, ← List.append_assoc]
      exact hexact.nodup_iff.2 List.nodup_range
    have hroles : (a.roles c).map Prod.snd =
        numbers c ++ (a.strings.map Prod.fst ++ a.trap.toList) := by
      simp [Assembly.roles, Function.comp_def]
    rw [hroles]
    exact (hcode.append_right _).nodup hused
  · have hroles : (a.roles c).map Prod.fst = ((numbers c).zipIdx.map Prod.snd).map .place ++
        ((a.strings.map Prod.snd).map .string ++ a.trap.toList.map fun _ => .trap) := by
      simp only [Assembly.roles, List.map_append, List.map_map]
      rfl
    have hplaces : (((numbers c).zipIdx.map Prod.snd).map Role.place).Nodup := by
      rw [List.zipIdx_map_snd]
      exact List.Nodup.map (fun k k' h => Role.place.inj h) List.nodup_range'
    have hstrings : ((a.strings.map Prod.snd).map Role.string).Nodup := by
      rw [hs]
      exact List.Nodup.map (fun s s' h => Role.string.inj h) hsane.contents
    have htrap : (a.trap.toList.map fun _ => Role.trap).Nodup := by
      cases a.trap <;> simp
    rw [hroles]
    apply hplaces.append (hstrings.append htrap _)
    · intro role hplace hrest
      obtain ⟨k, _, rfl⟩ := List.mem_map.1 hplace
      simp at hrest
    · intro role hstring hrest
      obtain ⟨s, _, rfl⟩ := List.mem_map.1 hstring
      simp at hrest

namespace Program

/-- A program with `x` as its only function. -/
def alone (x : String) (p : Program) : Program :=
  p.filter fun
    | .var _ => true
    | .function f => f.name == x

variable {p q : Program} {f : Function}

theorem globals_alone (x : String) (p : Program) : (p.alone x).globals = p.globals := by
  rw [globals, alone, List.filterMap_filter]
  apply List.filterMap_congr
  intro d _
  cases d with
  | var v => rfl
  | function f => exact ite_self none

theorem functions_alone (x : String) (p : Program) :
    (p.alone x).functions = p.functions.filter (·.name == x) := by
  rw [functions, functions, alone, List.filterMap_filter, List.filter_filterMap]
  apply List.filterMap_congr
  intro d _
  cases d with
  | var v => rfl
  | function f => rfl

theorem functions_alone_eq (hn : (p.map Decl.name).Nodup) (hf : f ∈ p.functions) :
    (p.alone f.name).functions = [f] := by
  have hnames := p.functions_names_sublist.nodup hn
  obtain ⟨before, after, hfs⟩ := List.append_of_mem hf
  rw [hfs, List.map_append, List.map_cons, List.nodup_middle, List.nodup_cons] at hnames
  have hother : ∀ g ∈ before ++ after, (g.name == f.name) = false := by
    intro g hg
    rw [beq_eq_false_iff_ne]
    intro hgf
    apply hnames.1
    rw [← List.map_append, ← hgf]
    exact List.mem_map_of_mem hg
  rw [List.forall_mem_append] at hother
  have hbefore := List.filter_eq_nil_iff.2 fun g hg => Bool.eq_false_iff.1 (hother.1 g hg)
  have hafter := List.filter_eq_nil_iff.2 fun g hg => Bool.eq_false_iff.1 (hother.2 g hg)
  rw [functions_alone, hfs, List.filter_append, List.filter_cons, hbefore, hafter]
  simp

/-- A function of an accepted program is compiled as if it were the only one: its code is what it
would be without the others, but for an injective change of numbers under which a string stays the
same string, and the trap the trap. -/
theorem generate_alone {ts : List Token} (hp : parse ts = .ok p) (hq : p.check.outcome = .ok q)
    {i : Nat} (hf : q.functions[i]? = some f) :
    (q.alone f.name).functions = [f] ∧ (q.alone f.name).globals = q.globals ∧
      ∃ a b c d, q.generate.outcome = .ok a ∧ a.functions[i]? = some c ∧
        (q.alone f.name).generate.outcome = .ok b ∧ b.functions = [d] ∧
          ∃ ρ : Nat → Nat, Function.Injective ρ ∧ Renumbers ρ b a ∧ c = renumbered ρ d := by
  have hd : p.Derives q := derives_of_check hp hq
  have hmem : f ∈ q.functions := List.mem_of_getElem? hf
  have hfunctions := functions_alone_eq hd.distinct_right hmem
  obtain ⟨a, ha⟩ := hd.exists_lower
  obtain ⟨b, hb⟩ : ∃ b, (q.alone f.name).lower = .ok b := by
    apply exists_lower_of_total
    rw [hfunctions]
    exact List.forall_mem_singleton.2 (hd.total_function hmem)
  have hbs := emits_of_lower hb
  rw [hfunctions] at hbs
  obtain ⟨d, ds, jd, hnil, hds⟩ := List.forall₂_cons_left_iff.1 hbs
  obtain rfl := List.forall₂_nil_left_iff.1 hnil
  have has := emits_of_lower ha
  obtain ⟨hi, hfi⟩ := List.getElem?_eq_some_iff.1 hf
  have hi' : i < a.functions.length := has.length_eq ▸ hi
  have jc : EmitsFunction a f a.functions[i] := by
    have h := has.get hi hi'
    rwa [List.get_eq_getElem, List.get_eq_getElem, hfi] at h
  have hrenumbered := EmitsFunction.exists_renumbered
    (numbered_of_lower hb (hds ▸ List.mem_singleton_self d))
    (numbered_of_lower ha (List.getElem_mem hi')) jd jc
  exact ⟨hfunctions, globals_alone _ _, a, b, _, d, Except.mapError_eq_ok_iff.2 ha,
    List.getElem?_eq_getElem hi', Except.mapError_eq_ok_iff.2 hb, hds, hrenumbered⟩

/-- A program with a string that two functions share, and a function that loops and indexes an
array. -/
def sharesStrings : String :=
  "int a[2]; void say(void) \x7b write(\"x\"); \x7d " ++
    "void main(void) \x7b while (a[0] < 1) \x7b write(\"y\"); say(); a[0] = 1; \x7d " ++
      "write(\"x\"); \x7d"

theorem sharesStrings_alone : ∃ ts, ∃ p q : Program, ∃ f, tokenize sharesStrings = .ok ts ∧
    parse ts = .ok p ∧ p.check.outcome = .ok q ∧ q.functions.length = 2 ∧
      q.functions[1]? = some f ∧ (q.alone f.name).functions = [f] ∧
        (q.alone f.name).globals = q.globals ∧
          ∃ a b c d, q.generate.outcome = .ok a ∧ a.functions[1]? = some c ∧
            (q.alone f.name).generate.outcome = .ok b ∧ b.functions = [d] ∧
              ∃ ρ : Nat → Nat, Function.Injective ρ ∧ Renumbers ρ b a ∧ c = renumbered ρ d := by
  have hok : ((tokenize sharesStrings).toOption.any fun ts => (parse ts).toOption.any fun p =>
      p.check.outcome.toOption.any fun q => q.functions.length == 2) = true := by
    decide +kernel
  simp only [Except.any_toOption_iff, beq_iff_eq] at hok
  obtain ⟨ts, hts, p, hp, q, hq, hlength⟩ := hok
  obtain ⟨f, hf⟩ : ∃ f, q.functions[1]? = some f := ⟨_, List.getElem?_eq_getElem (by omega)⟩
  exact ⟨ts, p, q, f, hts, hp, hq, hlength, hf, generate_alone hp hq hf⟩

end Program

end Bpl
