import Bpl.Proofs.Machine.Entry

namespace Bpl.Machine

open Asm Lowering Simulation Stack

variable {a : Assembly} {H : Host a}

/-- What is stored from a state on by its next instruction, if anything, goes to none of the words
`K`. -/
def Spares (H : Host a) (K : Set Int) (t : State) : Prop :=
  ∀ src x, a.code[t.line]? = some (.instr (.mov src (.mem x))) → (t.locate H x).toInt ∉ K

/-- `Within H K s t`: a function that is entered at `s` comes to `t`, and is not left on the way.
The functions that it calls are run up to their return. No instruction stores into the words `K`,
nor, as long as a call lasts, into the two words that are pushed for it: the return address and the
frame pointer of the caller. -/
inductive Within (H : Host a) : Set Int → State → State → Prop
  | refl {K : Set Int} {s : State} : Within H K s s
  | step {K : Set Int} {s t u : State} :
      Within H K s t → (∀ l, a.code[t.line]? ≠ some (.instr (.call l))) →
        a.code[t.line]? ≠ some (.instr .ret) → Spares H K t → step H t = some (.next u) →
          Within H K s u
  | call {K : Set Int} {s t u v w : State} {l : Label} :
      Within H K s t → a.code[t.line]? = some (.instr (.call l)) → step H t = some (.next u) →
        Within H (insert u.sp (insert (u.sp + 8) K)) u v →
          a.code[v.line]? = some (.instr .ret) → step H v = some (.next w) → Within H K s w

/-- Whether a function goes on without a call, and stores into none of some words. -/
def goesOn (H : Host a) (ws : List Int) (s : State) : Bool :=
  match a.code[s.line]? with
  | none | some (.instr (.call _)) | some (.instr .ret) => false
  | some (.instr (.mov _ (.mem x))) => (s.locate H x).toInt ∉ ws
  | some _ => true

/-- A function is entered at its first line, with a stack that is in its limits. -/
structure Entered (H : Host a) (k : Nat) (s : State) : Prop where
  line : s.line = k
  room : H.limit ≤ s.sp
  top : s.sp ≤ H.top
  aligned : s.sp % 8 = 0

/-- The code of `f` stands from line `k` on. What is behind its prologue is made of pieces, up to a
return; its jumps lead to labels in it, and its checks to the trap. -/
structure Body (a : Assembly) (f : Function) (k : Nat) (ls : Code) : Prop where
  start : lineOf? a (.function f.name) = some k
  code : CodeAt a k (.label (.function f.name) :: prologue (Frame.layout f) ++ ls)
  below : k + bodyLine (Frame.layout f) + ls.length ≤ a.functions.flatten.length
  takes : Takes (Frame.layout f) (Frame.layout f).size ls (Frame.layout f).size
  last : ls.getLast? = some (.instr .ret)
  jumps : ∀ l, .instr (.jmp l) ∈ ls ∨ .instr (.je l) ∈ ls → .label l ∈ ls
  leaves : ∀ l, .instr (.jae l) ∈ ls → ∃ n, a.trap = some n ∧ l = .numbered n
  fits : (Frame.layout f).size < 2 ^ 63
  aligned : ((Frame.layout f).size : Int) % 8 = 0

/-- Between two pieces of the code of a function: the stack has the height that the code before
tells, and the words `K` are as they were when the function was entered. -/
structure Between (H : Host a) (f : Function) (k : Nat) (K : Set Int) (s : State) (pre : Code)
    (h : Int) (t : State) : Prop where
  takes : Takes (Frame.layout f) (Frame.layout f).size pre h
  line : t.line = k + bodyLine (Frame.layout f) + pre.length
  rbp : (t.regs .rbp).toInt = entryBase f s.sp
  sp : t.sp = entryBase f s.sp - h
  room : H.limit ≤ t.sp
  mem : ∀ w ∈ K, t.mem w = s.mem w

/-- Where a function is that was entered at `s`: in its prologue, within a piece of its code up to
a call, behind the return from one, or in the trap. -/
inductive Inside (H : Host a) (f : Function) (k : Nat) (ls : Code) (K : Set Int) (s : State) :
    State → Prop
  | entering {j : Nat} {t : State} :
      j < bodyLine (Frame.layout f) → stateAfter H j s = some t → Inside H f k ls K s t
  | running {pre c post : Code} {h m : Int} {j : Nat} {t u : State} :
      ls = pre ++ (c ++ post) → Between H f k K s pre h t → 0 ≤ h →
        Stack.Piece (Frame.layout f) h c m → Takes (Frame.layout f) m post (Frame.layout f).size →
          j < c.length → (∀ l, .instr (.call l) ∉ c.take j) → stateAfter H j t = some u →
            Inside H f k ls K s u
  | returned {pre post : Code} {x : String} {h : Int} {t u : State} :
      ls = pre ++ (callCode (.function x) ++ post) → Between H f k K s pre h t → 0 ≤ h →
        Takes (Frame.layout f) h post (Frame.layout f).size → u.line = t.line + 2 →
          u.sp = t.sp - 8 → H.limit ≤ u.sp → u.mem u.sp = t.regs .rbp →
            (∀ w ∈ K, u.mem w = s.mem w) → Inside H f k ls K s u
  | trapped {n : Nat} {t : State} :
      a.trap = some n → a.functions.flatten.length ≤ t.line →
        t.line < a.functions.flatten.length + 7 → Inside H f k ls K s t

theorem Within.next {K : Set Int} {ws : List Int} {s t u : State} (h : Within H K s t)
    (hK : ∀ w ∈ K, w ∈ ws) (hgoes : goesOn H ws t = true)
    (hstep : Machine.step H t = some (.next u)) : Within H K s u := by
  refine h.step (fun l hl => ?_) (fun hret => ?_) (fun src x hx hmem => ?_) hstep
  · simp [goesOn, hl] at hgoes
  · simp [goesOn, hret] at hgoes
  · simp [goesOn, hx, hK _ hmem] at hgoes

/-- A run without calls. -/
theorem within_of_stateAfter {K : Set Int} {ws : List Int} {n : Nat} {s t : State}
    (hK : ∀ w ∈ K, w ∈ ws) (h : stateAfter H n s = some t)
    (hgoes : ∀ i < n, (stateAfter H i s).any (goesOn H ws) = true) : Within H K s t := by
  induction n generalizing t with
  | zero =>
    cases h
    exact .refl
  | succ n ih =>
    rw [stateAfter_add, Option.bind_eq_some_iff] at h
    obtain ⟨u, hu, h⟩ := h
    obtain ⟨v, hstep, hv⟩ := stateAfter_succ.1 h
    cases hv
    have hlast := hgoes n (Nat.lt_succ_self n)
    rw [hu] at hlast
    exact (ih hu fun i hi => hgoes i (hi.trans (Nat.lt_succ_self n))).next hK hlast hstep

section

variable {q : Program} {f g : Function} {k : Nat} {ls pre c d post : Code} {K : Set Int}
  {h m : Int} {i j n : Nat} {l : Label} {s t u v : State}

theorem entryBase_le (f : Function) (r : Int) : entryBase f r ≤ r := by
  rw [entryBase]
  split <;> omega

theorem Body.code_body (hb : Body a f k ls) :
    CodeAt a (k + bodyLine (Frame.layout f)) ls := by
  have hcode := (codeAt_append.1 hb.code).2
  rwa [List.length_cons, length_prologue] at hcode

theorem Body.code_piece (hb : Body a f k ls) (hls : ls = pre ++ (c ++ post)) :
    CodeAt a (k + bodyLine (Frame.layout f) + pre.length) c := by
  have hcode := hb.code_body
  rw [hls, codeAt_append, codeAt_append] at hcode
  exact hcode.2.1

theorem Between.le (hb : Between H f k K s pre h t) (hh : 0 ≤ h) : t.sp ≤ s.sp := by
  have hle := entryBase_le f s.sp
  have hsp := hb.sp
  omega

theorem Between.aligned (hb : Body a f k ls) (he : Entered H k s)
    (ht : Between H f k K s pre h t) : t.sp % 8 = 0 := by
  have hheight := ht.takes.aligned hb.aligned hb.aligned
  have hsp := ht.sp
  have haligned := he.aligned
  rw [entryBase] at hsp
  split at hsp <;> omega

/-- Code is run line by line. -/
theorem line_of_stateAfter (hc : CodeAt a s.line c) (h : stateAfter H j s = some t)
    (hj : j ≤ c.length) (hpassed : ∀ x ∈ c.take j, isPassed x = true) : t.line = s.line + j := by
  induction j generalizing t with
  | zero =>
    cases h
    rfl
  | succ j ih =>
    rw [stateAfter_add, Option.bind_eq_some_iff] at h
    obtain ⟨u, hu, h⟩ := h
    obtain ⟨v, hstep, hv⟩ := stateAfter_succ.1 h
    cases hv
    have hline : u.line = s.line + j := by
      refine ih hu (by omega) fun x hx => hpassed x ?_
      exact (List.take_subset_take_left c (Nat.le_succ j)) hx
    have hget := getElem?_of_codeAt hc (by omega : j < c.length)
    rw [← hline] at hget
    have hlast : isPassed (c.get ⟨j, by omega⟩) = true := by
      refine hpassed _ ?_
      rw [List.mem_take_iff_getElem]
      exact ⟨j, by omega, rfl⟩
    rcases step_cases hstep with ⟨l, _, rfl⟩ | ⟨i, hi, he⟩
    · rw [State.next_line, hline, Nat.add_assoc]
    · rw [hi] at hget
      have heq : c.get ⟨j, by omega⟩ = .instr i := (Option.some.inj hget).symm
      rw [heq] at hlast
      rw [line_of_exec_next he, hline, Nat.add_assoc]
      · cases i <;> first | rfl | cases hlast
      · rintro l rfl
        cases hlast
      · rintro rfl
        cases hlast

/-- Within a piece, control is at one of its lines. -/
theorem Body.line_eq (hb : Body a f k ls) (hls : ls = pre ++ (d ++ post))
    (ht : Between H f k K s pre h t) (hp : Stack.Piece (Frame.layout f) h d m)
    (hj : j < d.length) (hcalls : ∀ l, .instr (.call l) ∉ d.take j)
    (hu : stateAfter H j t = some u) :
    u.line = t.line + j ∧ a.code[u.line]? = d[j]? := by
  have hcode : CodeAt a t.line d := by
    rw [ht.line]
    exact hb.code_piece hls
  have hline := line_of_stateAfter hcode hu hj.le (hp.isPassed_of_mem_take hj hcalls)
  refine ⟨hline, ?_⟩
  rw [hline, getElem?_of_codeAt hcode hj, List.getElem?_eq_getElem hj]

theorem Inside.of_between (hls : ls = pre ++ post) (ht : Between H f k K s pre h t)
    (hd : Takes (Frame.layout f) h post (Frame.layout f).size) (hne : post ≠ []) :
    Inside H f k ls K s t := by
  cases hd with
  | nil => exact absurd rfl hne
  | cons hh hp hd =>
    exact .running (j := 0) hls ht hh hp hd hp.length_pos (fun l hl => by cases hl) rfl

/-- A piece of code is passed as a whole. -/
theorem Between.after (ht : Between H f k K s pre h t) (hh : 0 ≤ h)
    (hp : Stack.Piece (Frame.layout f) h c m) (hline : u.line = t.line + c.length)
    (hrbp : u.regs .rbp = t.regs .rbp) (hsp : u.sp = t.sp + h - m) (hroom : H.limit ≤ u.sp)
    (hmem : ∀ w ∈ K, u.mem w = t.mem w) : Between H f k K s (pre ++ c) m u where
  takes := ht.takes.append (.single hh hp)
  line := by
    rw [hline, ht.line, List.length_append, Nat.add_assoc]
  rbp := hrbp ▸ ht.rbp
  sp := by
    have hsp' := ht.sp
    omega
  room := hroom
  mem := fun w hw => (hmem w hw).trans (ht.mem w hw)

theorem State.Still.keeps {x : Instr} (hstill : State.Still H x t u)
    (hx : a.code[t.line]? = some (.instr x)) (hspares : Spares H K t) :
    ∀ w ∈ K, u.mem w = t.mem w := by
  intro w hw
  rcases hstill.mem w with hmem | ⟨src, y, rfl, hy⟩
  · exact hmem
  · exact absurd (hy ▸ hw) (hspares src y hx)

/-- A jump in a function leads to a label in it, at the height of the frame. -/
theorem Inside.of_jump (hm : q.Makes a) (hb : Body a f k ls)
    (ht : Between H f k K s pre (Frame.layout f).size t) (hl : .label (.numbered n) ∈ ls)
    (hline : lineOf? a (.numbered n) = some u.line) (hrsp : u.regs .rsp = t.regs .rsp)
    (hrbp : u.regs .rbp = t.regs .rbp) (hmem : ∀ w ∈ K, u.mem w = t.mem w) :
    Inside H f k ls K s u := by
  obtain ⟨before, behind, hls, hbefore, hbehind⟩ := hb.takes.exists_of_label hl
  have hlabel : CodeAt a (k + bodyLine (Frame.layout f) + before.length)
      [.label (.numbered n)] := by
    have hsplit : ls = before ++ ([.label (.numbered n)] ++ behind) := by
      rw [hls]
      rfl
    exact hb.code_piece hsplit
  have hat := hm.numbered n _ (codeAt_cons.1 hlabel).1
  have hsp : u.sp = t.sp := congrArg Int64.toInt hrsp
  refine .of_between hls ⟨hbefore, ?_, hrbp ▸ ht.rbp, hsp ▸ ht.sp, hsp ▸ ht.room, ?_⟩ hbehind
    (List.cons_ne_nil _ _)
  · exact Option.some.inj (hline.symm.trans hat)
  · exact fun w hw => (hmem w hw).trans (ht.mem w hw)

/-- An instruction that leaves the stack alone is passed, or leads to the trap. -/
theorem Inside.of_still {x : Instr} (hm : q.Makes a) (hb : Body a f k ls)
    (hls : ls = pre ++ (code [x] ++ post)) (ht : Between H f k K s pre h t) (hh : 0 ≤ h)
    (hx : isStill x = true) (hd : Takes (Frame.layout f) h post (Frame.layout f).size)
    (hne : post ≠ []) (hget : a.code[t.line]? = some (.instr x)) (he : exec H t x = some (.next u))
    (hspares : Spares H K t) : Inside H f k ls K s u := by
  have hstill := still_of_exec hx he
  have hsp : u.sp = t.sp := congrArg Int64.toInt hstill.rsp
  rcases line_of_exec he with hline | ⟨l, htarget | rfl, hline⟩ | rfl
  · have hu := ht.after hh (.still hx) hline hstill.rbp (by omega) (hsp ▸ ht.room)
      (hstill.keeps hget hspares)
    exact .of_between (by rw [hls, List.append_assoc]) hu hd hne
  · cases x with
    | jae l' =>
      cases htarget
      have hmem : .instr (.jae l) ∈ ls := by
        rw [hls]
        simp [code]
      obtain ⟨n, htrap, rfl⟩ := hb.leaves l hmem
      have hlabel := hm.numbered n _ (codeAt_cons.1 (codeAt_trapCode htrap)).1
      have hat := Option.some.inj (hlabel.symm.trans hline)
      exact .trapped htrap hat.le (by omega)
    | jmp | je => cases hx
    | _ => cases htarget
  · cases hx
  · cases hx

/-- A jump goes on behind itself, or at a label of the function. -/
theorem Inside.of_joint {x : Instr} (hm : q.Makes a) (hb : Body a f k ls)
    (hls : ls = pre ++ (code [x] ++ post)) (ht : Between H f k K s pre (Frame.layout f).size t)
    (hp : Stack.Piece (Frame.layout f) (Frame.layout f).size (code [x]) (Frame.layout f).size)
    (hd : Takes (Frame.layout f) (Frame.layout f).size post (Frame.layout f).size)
    (hne : post ≠ []) (hget : a.code[t.line]? = some (.instr x))
    (hx : x = .jmp (.numbered n) ∨ x = .je (.numbered n)) (he : exec H t x = some (.next u))
    (hspares : Spares H K t) : Inside H f k ls K s u := by
  have hjoint : isJoint (.instr x) = true := by
    rcases hx with rfl | rfl <;> rfl
  have hstill := still_of_exec_joint hjoint he
  have hsp : u.sp = t.sp := congrArg Int64.toInt hstill.rsp
  have hkeeps := hstill.keeps hget hspares
  have hmem : .label (.numbered n) ∈ ls := by
    refine hb.jumps _ (hx.imp ?_ ?_) <;>
    · rintro rfl
      simp [hls, code]
  rcases line_of_exec he with hline | ⟨l, hl, hline⟩ | rfl
  · have hu := ht.after (Int.natCast_nonneg _) hp hline hstill.rbp (by omega) (hsp ▸ ht.room)
      hkeeps
    exact .of_between (by rw [hls, List.append_assoc]) hu hd hne
  · have hl : l = .numbered n := by
      rcases hx with rfl | rfl <;> simpa [Instr.target?, eq_comm] using hl
    exact .of_jump hm hb ht hmem (hl ▸ hline) hstill.rsp hstill.rbp hkeeps
  · rcases hx with hx | hx <;> cases hx

/-- The end of a piece of code is the beginning of the next, or a label that it leads to. -/
theorem Inside.of_piece (hm : q.Makes a) (hb : Body a f k ls) (he : Entered H k s)
    (habove : ∀ w ∈ K, s.sp ≤ w) (hls : ls = pre ++ (c ++ post))
    (ht : Between H f k K s pre h t) (hh : 0 ≤ h) (hp : Stack.Piece (Frame.layout f) h c m)
    (hd : Takes (Frame.layout f) m post (Frame.layout f).size) (hne : post ≠ [])
    (hcalls : ∀ l, .instr (.call l) ∉ c) (hret : .instr .ret ∉ c)
    (hspares : c.length = 1 → Spares H K t) (hu : stateAfter H c.length t = some u) :
    Inside H f k ls K s u := by
  have hlimit := H.limit_nonneg
  have hlt := H.top_lt
  have hroom := ht.room
  have hle := ht.le hh
  have htop := he.top
  have hnext : ls = (pre ++ c) ++ post := by rw [hls, List.append_assoc]
  have hcode : CodeAt a t.line c := by
    rw [ht.line]
    exact hb.code_piece hls
  cases hp with
  | @still _ x hx =>
    obtain ⟨v, hv, _, hu⟩ := exec_of_stateAfter hcode hu
    cases hu
    exact .of_still hm hb hls ht hh hx hd hne (codeAt_code_cons.1 hcode).1 hv (hspares rfl)
  | push =>
    obtain ⟨v, hv, hlimit', hu⟩ := exec_of_stateAfter hcode hu
    cases hu
    obtain ⟨x, _, _, rfl⟩ := pushed_of_exec hv (by omega)
    have hsp := t.sp_pushed x (by omega)
    refine .of_between hnext (ht.after hh .push rfl ?_ ?_ hlimit' fun w hw => ?_) hd hne
    · rw [State.next_regs, State.pushed_regs, if_neg (by decide)]
    · rw [State.sp_next, hsp]
      omega
    · have hw' := habove w hw
      rw [State.next_mem, t.mem_pushed _ _ (by omega), if_neg (by omega)]
  | @pop _ r hrsp hrbp hheight =>
    obtain ⟨v, hv, hlimit', hu⟩ := exec_of_stateAfter hcode hu
    cases hu
    obtain ⟨_, rfl⟩ := popped_of_exec hv
    have hsp := t.sp_popped hrsp (by omega)
    refine .of_between hnext (ht.after hh (.pop hrsp hrbp hheight) rfl ?_ ?_ hlimit'
      fun _ _ => rfl) hd hne
    · rw [State.next_regs, State.popped_regs, if_neg hrbp.symm, if_neg (by decide)]
    · rw [State.sp_next, hsp]
      omega
  | @drop _ k' hpos hheight haligned =>
    obtain ⟨v, hv, hlimit', hu⟩ := exec_of_stateAfter hcode hu
    cases hu
    cases hv
    have hreg : (t.regs .rsp).toInt = t.sp := rfl
    have hbase := ht.sp
    have hbase' := entryBase_le f s.sp
    have hsp : (t.regs .rsp + k').toInt = t.sp + k'.toInt := by
      rw [Int64.toInt_add_of_fits, hreg] <;> omega
    refine .of_between hnext (ht.after hh (.drop hpos hheight haligned) rfl rfl ?_ hlimit'
      fun _ _ => rfl) hd hne
    change (t.regs .rsp + k').toInt = _
    omega
  | @label n =>
    rw [List.length_singleton, stateAfter_label (codeAt_cons.1 hcode).1] at hu
    cases hu
    refine .of_between hnext (ht.after hh .label rfl rfl ?_ hroom fun _ _ => rfl) hd hne
    rw [State.sp_next]
    omega
  | jmp =>
    obtain ⟨v, hv, _, hu⟩ := exec_of_stateAfter hcode hu
    cases hu
    exact .of_joint hm hb hls ht .jmp hd hne (codeAt_code_cons.1 hcode).1 (.inl rfl) hv
      (hspares rfl)
  | je =>
    obtain ⟨v, hv, _, hu⟩ := exec_of_stateAfter hcode hu
    cases hu
    exact .of_joint hm hb hls ht .je hd hne (codeAt_code_cons.1 hcode).1 (.inr rfl) hv
      (hspares rfl)
  | write =>
    obtain ⟨hline, hrsp, hrbp, hmem⟩ := library_of_stateAfter hcode hu hroom (by omega) nofun
    have hsp : u.sp = t.sp := congrArg Int64.toInt hrsp
    refine .of_between hnext (ht.after hh .write hline hrbp (by omega) (by omega) ?_) hd hne
    exact fun w hw => hmem w (by have := habove w hw; omega) nofun
  | read =>
    obtain ⟨hline, hsp, hrbp, hmem⟩ := read_of_stateAfter hcode hu hroom (by omega)
    refine .of_between hnext (ht.after hh .read hline hrbp (by omega) (by omega) ?_) hd hne
    exact fun w hw => hmem w (by have := habove w hw; omega)
  | call => exact absurd (List.mem_cons_of_mem _ List.mem_cons_self) (hcalls _)
  | leave =>
    rw [epilogue_eq] at hret
    exact absurd (List.mem_append_right _ List.mem_cons_self) hret

theorem isPassed_of_mem_prologue {frame : Frame} {x : String} :
    ∀ y ∈ .label (.function x) :: prologue frame, isPassed y = true := by
  unfold prologue
  split <;> split <;> simp [code, move, isPassed]

theorem isPassed_of_mem_trapCode {x : Line} (hx : x ∈ trapCode n) : isPassed x = true := by
  simp only [trapCode, List.mem_cons, List.not_mem_nil, or_false] at hx
  rcases hx with rfl | rfl | rfl | rfl | rfl | rfl | rfl <;> rfl

/-- The lines of the prologue come one behind the other. -/
theorem Body.line_entering (hb : Body a f k ls) (hs : s.line = k)
    (hj : j < bodyLine (Frame.layout f)) (ht : stateAfter H j s = some t) : t.line = k + j := by
  have hcode : CodeAt a s.line (.label (.function f.name) :: prologue (Frame.layout f)) := by
    rw [hs]
    exact (codeAt_append.1 hb.code).1
  have hlen := length_prologue (Frame.layout f)
  rw [← hs]
  refine line_of_stateAfter hcode ht ?_ fun x hx => ?_
  · rw [List.length_cons]
    omega
  · exact isPassed_of_mem_prologue x (List.mem_of_mem_take hx)

/-- Where a function calls another or returns, it is within a piece of its code. -/
theorem Inside.exists_of_not_isPassed (hb : Body a f k ls) (hs : s.line = k)
    (hi : Inside H f k ls K s u) {x : Line} (hx : a.code[u.line]? = some x)
    (hpassed : isPassed x = false) :
    ∃ pre d post h m j t, ls = pre ++ (d ++ post) ∧ Between H f k K s pre h t ∧ 0 ≤ h ∧
      Stack.Piece (Frame.layout f) h d m ∧ Takes (Frame.layout f) m post (Frame.layout f).size ∧
        stateAfter H j t = some u ∧ d[j]? = some x := by
  cases hi with
  | @entering j _ hj ht =>
    have hline := hb.line_entering hs hj ht
    have hlen := length_prologue (Frame.layout f)
    have hget := getElem?_of_codeAt (codeAt_append.1 hb.code).1
      (by rw [List.length_cons]; omega : j < _)
    rw [← hline, hx, Option.some.injEq] at hget
    rw [hget, isPassed_of_mem_prologue _ (List.getElem_mem _)] at hpassed
    cases hpassed
  | @running pre d post h m j t _ hls ht hh hp hd hj hcalls hu =>
    obtain ⟨_, hget⟩ := hb.line_eq hls ht hp hj hcalls hu
    exact ⟨pre, d, post, h, m, j, t, hls, ht, hh, hp, hd, hu, hget.symm.trans hx⟩
  | @returned pre post y h t _ hls ht _ _ hline =>
    have hget := getElem?_of_codeAt (hb.code_piece hls) (by decide : 2 < 3)
    rw [← ht.line, ← hline, hx] at hget
    cases hget
    cases hpassed
  | @trapped n _ htrap hlo hhi =>
    obtain ⟨j, hj⟩ := Nat.exists_eq_add_of_le hlo
    have hjlt : j < (trapCode n).length := by
      change j < 7
      omega
    have hget := getElem?_of_codeAt (codeAt_trapCode htrap) hjlt
    rw [← hj, hx, Option.some.injEq] at hget
    rw [hget, isPassed_of_mem_trapCode (List.getElem_mem _)] at hpassed
    cases hpassed

/-- Behind a return, the frame pointer is taken from the stack. -/
theorem Inside.of_returned {x : String} (hb : Body a f k ls) (he : Entered H k s)
    (hls : ls = pre ++ (callCode (.function x) ++ post)) (ht : Between H f k K s pre h t)
    (hh : 0 ≤ h) (hd : Takes (Frame.layout f) h post (Frame.layout f).size) (hne : post ≠ [])
    (hline : u.line = t.line + 2) (hsp : u.sp = t.sp - 8) (hword : u.mem u.sp = t.regs .rbp)
    (hmem : ∀ w ∈ K, u.mem w = s.mem w) (hstep : step H u = some (.next v)) :
    Inside H f k ls K s v := by
  have hlt := H.top_lt
  have hle := ht.le hh
  have htop := he.top
  have hget := getElem?_of_codeAt (hb.code_piece hls) (by decide : 2 < 3)
  rw [← ht.line, ← hline] at hget
  obtain ⟨hexec, hroom⟩ := step_instr hget hstep
  obtain ⟨_, rfl⟩ := popped_of_exec hexec
  have hsp' := u.sp_popped (r := .rbp) (by decide) (by omega)
  refine .of_between (by rw [hls, List.append_assoc]) ⟨?_, ?_, ?_, ?_, hroom, hmem⟩ hd hne
  · exact ht.takes.append (.single hh .call)
  · rw [State.next_line, State.popped_line, hline, ht.line, List.length_append]
    rfl
  · rw [State.next_regs, State.popped_regs, if_pos rfl, hword]
    exact ht.rbp
  · rw [State.sp_next, hsp', hsp, Int.sub_add_cancel]
    exact ht.sp

theorem Body.behind_ne_nil (hb : Body a f k ls) (hls : ls = pre ++ (c ++ post))
    (hret : .instr .ret ∉ c) (hc : 0 < c.length) : post ≠ [] := by
  rintro rfl
  have hlast := hb.last
  rw [hls, List.append_nil, List.getLast?_append_of_ne_nil _ (List.length_pos_iff.1 hc)] at hlast
  exact hret (List.mem_of_getLast? hlast)

/-- The last step of a prologue opens the frame; each step before it leads on in the prologue. -/
theorem Inside.of_entering (hb : Body a f k ls) (he : Entered H k s)
    (habove : ∀ w ∈ K, s.sp ≤ w) (hj : j < bodyLine (Frame.layout f))
    (hu : stateAfter H (j + 1) s = some u) : Inside H f k ls K s u := by
  by_cases hlast : j + 1 < bodyLine (Frame.layout f)
  · exact .entering hlast hu
  · have hcode : CodeAt a s.line (.label (.function f.name) :: prologue (Frame.layout f)) := by
      rw [he.line]
      exact (codeAt_append.1 hb.code).1
    have hlen : j + 1 = bodyLine (Frame.layout f) := by omega
    rw [hlen] at hu
    obtain ⟨ho, hroom⟩ := opens_of_stateAfter hcode hb.fits he.room hu
    have hne : ls ≠ [] := by
      rintro rfl
      cases hb.last
    have hbegin : ls = [] ++ ls := rfl
    refine .of_between hbegin ⟨.nil, ?_, ho.rbp, ho.sp, hroom, ?_⟩ hb.takes hne
    · rw [ho.line, he.line]
      rfl
    · exact fun w hw => ho.mem w (habove w hw)

/-- The last step of a piece leads to what is behind it; each step before it leads on in the piece.
A call or a return would lead elsewhere. -/
theorem Inside.of_running (hm : q.Makes a) (hb : Body a f k ls) (he : Entered H k s)
    (habove : ∀ w ∈ K, s.sp ≤ w) (hls : ls = pre ++ (d ++ post))
    (ht : Between H f k K s pre h t) (hh : 0 ≤ h) (hp : Stack.Piece (Frame.layout f) h d m)
    (hd : Takes (Frame.layout f) m post (Frame.layout f).size) (hj : j < d.length)
    (hcalls : ∀ l, .instr (.call l) ∉ d.take j) (hcall : ∀ l, d[j]? ≠ some (.instr (.call l)))
    (hret : d[j]? ≠ some (.instr .ret)) (hspares : j = 0 → Spares H K t)
    (hu : stateAfter H (j + 1) t = some u) : Inside H f k ls K s u := by
  have hcalls' : ∀ l, .instr (.call l) ∉ d.take (j + 1) := by
    intro l hl
    rw [List.take_add_one, List.mem_append] at hl
    rcases hl with hl | hl
    · exact hcalls l hl
    · exact hcall l (Option.mem_toList.1 hl)
  by_cases hlast : j + 1 < d.length
  · exact .running hls ht hh hp hd hlast hcalls' hu
  · have hlen : j + 1 = d.length := by omega
    -- a return ends its piece, so that none stands before the line where the run is
    have hret' : .instr .ret ∉ d := by
      intro hmem
      obtain ⟨i, hi⟩ := List.getElem?_of_mem hmem
      have hij : i = j := by
        have hend := (hp.eq_of_ret hi).2
        omega
      exact hret (hij ▸ hi)
    rw [hlen, List.take_length] at hcalls'
    rw [hlen] at hu
    exact .of_piece hm hb he habove hls ht hh hp hd (hb.behind_ne_nil hls hret' hp.length_pos)
      hcalls' hret' (fun hone => hspares (by omega)) hu

/-- What one step of a function preserves. -/
theorem Inside.step (hm : q.Makes a) (hb : Body a f k ls) (he : Entered H k s)
    (habove : ∀ w ∈ K, s.sp ≤ w) (hi : Inside H f k ls K s t)
    (hcall : ∀ l, a.code[t.line]? ≠ some (.instr (.call l)))
    (hret : a.code[t.line]? ≠ some (.instr .ret)) (hspares : Spares H K t)
    (hstep : Machine.step H t = some (.next u)) : Inside H f k ls K s u := by
  cases hi with
  | entering hj ht => exact .of_entering hb he habove hj (stateAfter_step ht hstep)
  | @running pre d post h m j t' _ hls ht hh hp hd hj hcalls hu =>
    obtain ⟨_, hget⟩ := hb.line_eq hls ht hp hj hcalls hu
    rw [hget] at hcall hret
    refine .of_running hm hb he habove hls ht hh hp hd hj hcalls hcall hret (fun hzero => ?_)
      (stateAfter_step hu hstep)
    rw [hzero] at hu
    cases hu
    exact hspares
  | returned hls ht hh hd hline hsp _ hword hmem =>
    have hne := hb.behind_ne_nil hls (by simp [callCode, code]) (Nat.succ_pos _)
    exact .of_returned hb he hls ht hh hd hne hline hsp hword hmem hstep
  | trapped htrap hlo hhi =>
    obtain ⟨hlo', hhi'⟩ := step_trap (codeAt_trapCode htrap) hlo hhi hstep
    exact .trapped htrap hlo' hhi'

/-- At its return, a function has given the stack back. -/
theorem Inside.at_ret (hb : Body a f k ls) (he : Entered H k s) (hi : Inside H f k ls K s u)
    (hret : a.code[u.line]? = some (.instr .ret)) :
    u.sp = s.sp ∧ ∀ w ∈ K, u.mem w = s.mem w := by
  obtain ⟨pre, d, post, h, m, j, t, hls, ht, _, hp, _, hu, hget⟩ :=
    hi.exists_of_not_isPassed hb he.line hret rfl
  obtain ⟨rfl, hlast⟩ := hp.eq_of_ret hget
  have hcode : CodeAt a t.line (epilogue (Frame.layout f)) := by
    rw [ht.line]
    exact hb.code_piece hls
  have hlen : j = (leave (Frame.layout f)).length := by
    rw [epilogue_eq, List.length_append] at hlast
    exact Nat.add_right_cancel hlast
  rw [hlen] at hu
  obtain ⟨_, hsp, hmem⟩ := left_of_stateAfter hcode ht.rbp he.top hu
  exact ⟨hsp, fun w hw => (congrFun hmem w).trans (ht.mem w hw)⟩

/-- A call is made between two pieces of code, and enters a function with the stack in its
limits. -/
theorem Inside.at_call (hb : Body a f k ls) (he : Entered H k s) (hi : Inside H f k ls K s t)
    (hcall : a.code[t.line]? = some (.instr (.call l)))
    (hstep : Machine.step H t = some (.next u)) :
    ∃ pre post x h t', ls = pre ++ (callCode (.function x) ++ post) ∧
      Between H f k K s pre h t' ∧ 0 ≤ h ∧
        Takes (Frame.layout f) h post (Frame.layout f).size ∧
          lineOf? a (.function x) = some u.line ∧ Enters H t' u ∧ Entered H u.line u := by
  obtain ⟨pre, d, post, h, m, j, t', hls, ht, hh, hp, hd, hu, hget⟩ :=
    hi.exists_of_not_isPassed hb he.line hcall rfl
  obtain ⟨x, rfl, rfl, rfl, rfl⟩ := hp.eq_of_call hget
  have hcode : CodeAt a t'.line (callCode (.function x)) := by
    rw [ht.line]
    exact hb.code_piece hls
  have hle := ht.le hh
  have htop := he.top
  obtain ⟨hline, haligned, _, henters⟩ :=
    enters_of_stateAfter hcode ht.room (by omega) (stateAfter_step hu hstep)
  have hsp := henters.sp
  exact ⟨pre, post, x, m, t', hls, ht, hh, hd, hline, henters,
    ⟨rfl, henters.room, by omega, by omega⟩⟩

/-- A callee that kept its two words and those of its caller comes back behind the call. -/
theorem Inside.of_ret {w t' : State} (he : Entered H k s) (habove : ∀ z ∈ K, s.sp ≤ z)
    (hb : Body a f k ls) (hls : ls = pre ++ (callCode (.function g.name) ++ post))
    (ht : Between H f k K s pre h t') (hh : 0 ≤ h)
    (hd : Takes (Frame.layout f) h post (Frame.layout f).size) (henters : Enters H t' u)
    (haligned : u.sp % 8 = 0) (hsp : v.sp = u.sp)
    (hkept : ∀ z ∈ insert u.sp (insert (u.sp + 8) K), v.mem z = u.mem z)
    (hret : a.code[v.line]? = some (.instr .ret)) (hback : Machine.step H v = some (.next w)) :
    Inside H f k ls K s w := by
  have hsp' := henters.sp
  have hroom := henters.room
  have hle := ht.le hh
  have htop := he.top
  have hcode : CodeAt a t'.line (callCode (.function g.name)) := by
    rw [ht.line]
    exact hb.code_piece hls
  obtain ⟨w', hw', hline, hsp'', hmem⟩ := exists_step_ret hcode henters hret hsp
    (hkept _ (Set.mem_insert _ _)) (by omega) (by omega)
  cases hw'.symm.trans hback
  refine .returned hls ht hh hd hline hsp'' (by omega) ?_ fun z hz => ?_
  · have hword : t'.sp - 8 = u.sp + 8 := by omega
    rw [hsp'', hmem, hword, hkept _ (Set.mem_insert_of_mem _ (Set.mem_insert _ _))]
    exact henters.saved
  · have hz' := habove z hz
    rw [hmem, hkept _ (Set.mem_insert_of_mem _ (Set.mem_insert_of_mem _ hz)),
      henters.mem z (.inl (by omega))]
    exact ht.mem z hz

/-- The code of a whole program: that of each function stands at its label, and no labels of other
functions are there. -/
structure Bodies (a : Assembly) (q : Program) : Prop where
  makes : q.Makes a
  functions : ∀ g ∈ q.functions, ∃ k ls, Body a g k ls
  names : ∀ x, .label (.function x) ∈ a.code → ∃ g ∈ q.functions, g.name = x

/-- What a whole run preserves: a function stays inside of its code, with the stack at the height
of each place, and the words that are spared are kept. -/
theorem Within.inside (hq : Bodies a q) (hw : Within H K s t) :
    ∀ {f : Function} {k : Nat} {ls : Code}, Body a f k ls → Entered H k s →
      (∀ w ∈ K, s.sp ≤ w) → Inside H f k ls K s t := by
  induction hw with
  | refl =>
    intro f k ls _ _ _
    have hlen := length_prologue (Frame.layout f)
    exact .entering (j := 0) (by omega) rfl
  | step _ hcall hret hspares hstep ih =>
    intro f k ls hb he habove
    exact (ih hb he habove).step hq.makes hb he habove hcall hret hspares hstep
  | @call K s t u v w l _ hcall hstep _ hret hback ih ih' =>
    intro f k ls hb he habove
    obtain ⟨pre, post, x, h, t', hls, ht, hh, hd, hline, henters, hentered⟩ :=
      (ih hb he habove).at_call hb he hcall hstep
    obtain ⟨g, hg, rfl⟩ := hq.names x (List.mem_of_getElem? (getElem?_of_lineOf? hline))
    obtain ⟨k', ls', hb'⟩ := hq.functions g hg
    cases hb'.start.symm.trans hline
    -- The callee must spare its return address and the frame pointer of its caller too, so that
    -- the invariant holds of it for more words.
    have habove' : ∀ z ∈ insert u.sp (insert (u.sp + 8) K), u.sp ≤ z := by
      have hsp := henters.sp
      have hle := ht.le hh
      rintro z (rfl | rfl | hz)
      · exact le_refl _
      · omega
      · have := habove z hz
        omega
    obtain ⟨hsp, hkept⟩ := (ih' hb' hentered habove').at_ret hb' hentered hret
    exact .of_ret he habove hb hls ht hh hd henters hentered.aligned hsp hkept hret hback

/-- A line that stands within no piece of code is where one begins. -/
theorem Inside.between {x : Line} (hb : Body a f k ls) (hs : s.line = k)
    (hi : Inside H f k ls K s u) (hls : ls = pre ++ x :: post) (hx : isInner x = false)
    (hline : u.line = k + bodyLine (Frame.layout f) + pre.length) :
    Between H f k K s pre (level (Frame.layout f).size (Frame.layout f).size pre) u := by
  have hlen : ls.length = pre.length + (post.length + 1) := by
    rw [hls, List.length_append, List.length_cons]
  have hget : ls[pre.length]? = some x := by simp [hls]
  cases hi with
  | entering hj ht =>
    have hat := hb.line_entering hs hj ht
    omega
  | @running pre' d post' h m j t _ hls' ht hh hp hd hj hcalls hu =>
    obtain ⟨hat, _⟩ := hb.line_eq hls' ht hp hj hcalls hu
    have hplace : pre.length = pre'.length + j := by
      have := ht.line
      omega
    have hget' : d[j]? = some x := by
      rw [← hget, hls', hplace, List.getElem?_append_right (by omega), Nat.add_sub_cancel_left,
        List.getElem?_append_left hj]
    -- any later line of a piece is an inner one
    cases j with
    | zero =>
      have hpre : pre = pre' := (List.append_inj (hls.symm.trans hls') hplace).1
      cases hu
      rw [hpre, ht.takes.level]
      exact ht
    | succ j =>
      have htail : x ∈ d.tail := by
        refine List.mem_of_getElem? (i := j) ?_
        rw [List.getElem?_tail]
        exact hget'
      rw [hp.isInner_of_mem_tail htail] at hx
      cases hx
  | @returned pre' post' y h t _ hls' ht hh _ hat =>
    have hplace : pre.length = pre'.length + 2 := by
      have := ht.line
      omega
    have hget' : (callCode (.function y))[2]? = some x := by
      rw [← hget, hls', hplace, List.getElem?_append_right (by omega), Nat.add_sub_cancel_left]
      rfl
    cases hget'
    cases hx
  | trapped _ hlo _ =>
    have hbelow := hb.below
    omega

end

end Bpl.Machine
