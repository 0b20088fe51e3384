import Bpl.Proofs.Lowering.Closed
import Bpl.Proofs.Stack.Arguments
import Bpl.Proofs.Stack.Boundaries

namespace Bpl.Stack

open Asm Lowering

/-- The line of a function at which its frame pointer is set. -/
def entry (frame : Frame) : Nat :=
  if frame.isMain then 3 else 2

/-- The instruction that makes room for the locals of a function, if it has any. -/
def room (frame : Frame) : Code :=
  code (if frame.size = 0 then [] else [.op .sub (.imm (Int64.ofNat frame.size)) .rsp])

/-- The line of a function at which its body begins. -/
def bodyLine (frame : Frame) : Nat :=
  entry frame + (room frame).length

/-- What leads to a return: the stack pointer is set back to the frame pointer, and the main
function takes the frame pointer of its caller from the stack. -/
def leave (frame : Frame) : Code :=
  if frame.isMain then code [.clear .rax, move .rbp .rsp, .pop .rbp] else code [move .rbp .rsp]

/-- `Height frame ls i h`: in the code of a function some path leads from where the frame pointer is
set to line `i`, at height `h`. -/
def Height (frame : Frame) (ls : Code) (i : Nat) (h : Int) : Prop :=
  Reaches ls (entry frame) 0 i h

/-- Code on every path through which the height comes back to where it began, and never goes below
that. -/
structure Neutral (ls : Code) : Prop where
  crosses : ∀ h, Reaches ls 0 h ls.length h
  floor : ∀ h i k, Reaches ls 0 h i k → h ≤ k
  net : ∀ h k, Reaches ls 0 h ls.length k → k = h

/-- The stack discipline of the code `ls` of the function `f`. -/
structure Disciplined (a : Assembly) (f : Function) (ls : Code) : Prop where
  set : ls[entry (Frame.layout f) - 1]? = some (.instr (move .rsp .rbp))
  begins : Height (Frame.layout f) ls (bodyLine (Frame.layout f)) (Frame.layout f).size
  unique : ∀ i h k, Height (Frame.layout f) ls i h → Height (Frame.layout f) ls i k → h = k
  floor : ∀ i h, bodyLine (Frame.layout f) ≤ i → i < ls.length → Height (Frame.layout f) ls i h →
    (Frame.layout f).size ≤ h ∨ Leaves (Frame.layout f) ls i
  joint : ∀ i x h, bodyLine (Frame.layout f) ≤ i → ls[i]? = some x → isJoint x = true →
    Height (Frame.layout f) ls i h → h = (Frame.layout f).size
  bound : ∃ d, EmitsBlock a (Frame.layout f) f.body d ∧
    ls = [.label (.function f.name)] ++ prologue (Frame.layout f) ++ d ++
      epilogue (Frame.layout f) ∧
    ∀ i h, BoundBlock a (Frame.layout f) f.body d i →
      Height (Frame.layout f) ls (bodyLine (Frame.layout f) + i) h → h = (Frame.layout f).size
  value : ∀ e ∈ f.body.exprs, ∀ x ∈ e.nodes, ∀ d, EmitsValue a (Frame.layout f) x d → Neutral d
  address : ∀ e ∈ f.body.exprs, ∀ x ∈ e.nodes, ∀ d, EmitsAddress a (Frame.layout f) x d → Neutral d
  ret : ∀ i, ls[i]? = some (.instr .ret) → leave (Frame.layout f) <:+ ls.take i ∧
    ∀ h, Height (Frame.layout f) ls i h → h = if f.isMain then -8 else 0

variable {frame : Frame} {ls d : Code} {i : Nat} {h k : Int}

theorem Moves.neutral (hc : Moves ls 0 0) : Neutral ls := by
  have hlevel : ∀ {h i k}, Reaches ls 0 h i k → k = Stack.level h h (ls.take i) := by
    intro h i k hr
    refine (show _ ∧ _ ∧ k = levelAt h h ls 0 i from
      Reaches.eq_levelAt (Nat.zero_le _) ?_ hr).2.2
    intro i j x l _ _ _ hj
    cases (hc.straight _ (List.mem_of_getElem? hj)).1
  refine ⟨fun h => by simpa using hc.crosses h, fun h i k hr => ?_, fun h k hr => ?_⟩
  · rw [hlevel hr]
    simpa using hc.floor h h _ (List.take_prefix i ls)
  · rw [hlevel hr, List.take_length, hc.level, Int.add_zero]

theorem moves_room (hfit : frame.size < 2 ^ 63) : Moves (room frame) 0 frame.size := by
  unfold room
  split
  · next h =>
    rw [h]
    exact moves_nil
  · refine moves_instr (fun h => ?_) rfl (le_refl 0) (Int.natCast_nonneg _)
    change some (h + (Int64.ofNat frame.size).toInt) = _
    rw [Int64.toInt_ofNat_of_lt hfit]

theorem epilogue_eq (frame : Frame) : epilogue frame = leave frame ++ code [.ret] := by
  unfold epilogue leave
  split <;> rfl

theorem level_leave (base h : Int) :
    level base h (leave frame) = if frame.isMain then -8 else 0 := by
  unfold leave
  split <;> rfl

/-- The code of a function: up to where its frame pointer is set, to its locals, and behind. -/
structure Laid (frame : Frame) (ls b d : Code) : Prop where
  split : ls = b ++ (room frame ++ d)
  set : b.length = entry frame
  plain : ∀ x ∈ b, (isJoint x = true → ∃ y, x = .label (.function y)) ∧ x ≠ .instr .ret
  fits : frame.size < 2 ^ 63
  levelled : Levelled frame d
  leaves : ∀ l, .instr (.jae l) ∈ ls → .label l ∉ ls

namespace Laid

variable {b : Code} (hl : Laid frame ls b d)

include hl

theorem drop_entry : ls.drop (entry frame) = room frame ++ d := by
  rw [hl.split, ← hl.set, List.drop_left]

theorem drop_bodyLine : ls.drop (bodyLine frame) = d := by
  rw [bodyLine, ← List.drop_drop, hl.drop_entry, List.drop_left]

theorem level_room : level frame.size 0 (room frame) = frame.size := by
  rw [(moves_room hl.fits).level, Int.zero_add]

/-- The height of a line of the body, as the code is read. -/
theorem levelAt_eq (hi : bodyLine frame ≤ i) :
    levelAt frame.size 0 ls (entry frame) i =
      level frame.size frame.size (d.take (i - bodyLine frame)) := by
  have hroom : (room frame).length ≤ i - entry frame := by
    rw [bodyLine] at hi
    omega
  rw [levelAt, List.drop_take, hl.drop_entry, List.take_append, List.take_of_length_le hroom,
    level_append, hl.level_room, Nat.sub_sub, bodyLine]

/-- Joints lie behind the prologue, apart from the label of the function. -/
theorem bodyLine_le {x : Line} (hx : ls[i]? = some x) (hj : isJoint x = true)
    (hf : ∀ y, x ≠ .label (.function y)) : bodyLine frame ≤ i := by
  rw [hl.split, ← List.append_assoc] at hx
  by_contra hi
  have hlt : i < (b ++ room frame).length := by
    rw [List.length_append, hl.set]
    exact Nat.lt_of_not_le hi
  rw [List.getElem?_append_left hlt] at hx
  rcases List.mem_append.1 (List.mem_of_getElem? hx) with hx | hx
  · obtain ⟨y, hy⟩ := (hl.plain x hx).1 hj
    exact hf y hy
  · rw [((moves_room hl.fits).straight x hx).1] at hj
    cases hj

theorem getElem?_body (hi : bodyLine frame ≤ i) : ls[i]? = d[i - bodyLine frame]? := by
  rw [← hl.drop_bodyLine, List.getElem?_drop, Nat.add_sub_cancel' hi]

theorem levelAt_joint {x : Line} (hx : ls[i]? = some x) (hj : isJoint x = true)
    (hf : ∀ y, x ≠ .label (.function y)) :
    levelAt frame.size 0 ls (entry frame) i = frame.size := by
  have hi := hl.bodyLine_le hx hj hf
  rw [hl.levelAt_eq hi]
  exact hl.levelled.joint _ x (hl.getElem?_body hi ▸ hx) hj

/-- All paths give a line the height that it has when the code is read. -/
theorem height_eq (hh : Height frame ls i h) :
    i ≤ ls.length ∧ h = levelAt frame.size 0 ls (entry frame) i := by
  have hentry : entry frame ≤ ls.length := by
    rw [hl.split, List.length_append, hl.set]
    exact Nat.le_add_right _ _
  -- a jump and the label that it leads to are joints, and all joints have the height of the frame
  refine (Reaches.eq_levelAt hentry ?_ hh).2
  intro i j x l _ hx hl' hj
  have hjump : isJoint (.instr x) = true := by
    cases x with
    | jmp l => rfl
    | je l => rfl
    | jae l =>
      cases hl'
      exact absurd (List.mem_of_getElem? hj) (hl.leaves _ (List.mem_of_getElem? hx))
    | _ => cases hl'
  have hi := hl.bodyLine_le hx hjump nofun
  have hxd := hl.getElem?_body hi ▸ hx
  obtain ⟨n, rfl⟩ := hl.levelled.target x l (List.mem_of_getElem? hxd) hjump hl'
  have hnumbered : ∀ y, Line.label (.numbered n) ≠ .label (.function y) := nofun
  refine ⟨?_, ?_⟩
  · exact (Nat.le_add_right _ _).trans (hl.bodyLine_le hj rfl hnumbered)
  · rw [hl.levelAt_joint hj rfl hnumbered, hl.levelAt_joint hx hjump nofun]

theorem height_body (hi : bodyLine frame ≤ i) (hh : Height frame ls i h) :
    h = level frame.size frame.size (d.take (i - bodyLine frame)) := by
  rw [(hl.height_eq hh).2, hl.levelAt_eq hi]

theorem begins : Height frame ls (bodyLine frame) frame.size := by
  have hr := ((moves_room hl.fits).crosses 0).context (b := b) (d := d)
  rw [List.append_assoc, ← hl.split, Nat.add_zero, Int.zero_add, hl.set] at hr
  exact hr

theorem floor (hi : bodyLine frame ≤ i) (hlt : i < ls.length) (hh : Height frame ls i h) :
    frame.size ≤ h ∨ Leaves frame ls i := by
  have hsplit : ls.take (bodyLine frame) ++ d = ls := by
    rw [← hl.drop_bodyLine, List.take_append_drop]
  have htake : (ls.take (bodyLine frame)).length = bodyLine frame := by
    rw [List.length_take]
    omega
  have hlen : i - bodyLine frame < d.length := by
    rw [← hl.drop_bodyLine, List.length_drop]
    omega
  rw [hl.height_body hi hh]
  refine (hl.levelled.floor _ hlen).imp_right fun hleaves => ?_
  have hleft : Leaves frame (ls.take (bodyLine frame) ++ d)
      ((ls.take (bodyLine frame)).length + (i - bodyLine frame)) := hleaves.append_left
  rwa [hsplit, htake, Nat.add_sub_cancel' hi] at hleft

/-- A return stands behind what leads to it. -/
theorem ret (hx : ls[i]? = some (.instr .ret)) : leave frame <:+ ls.take i ∧
    ∀ h, Height frame ls i h → h = if frame.isMain then -8 else 0 := by
  have hi : bodyLine frame ≤ i := by
    by_contra hi
    have hlt : i < (b ++ room frame).length := by
      rw [List.length_append, hl.set]
      exact Nat.lt_of_not_le hi
    rw [hl.split, ← List.append_assoc, List.getElem?_append_left hlt] at hx
    rcases List.mem_append.1 (List.mem_of_getElem? hx) with hx | hx
    · exact (hl.plain _ hx).2 rfl
    · exact ((moves_room hl.fits).straight _ hx).2 rfl
  have hxd := hl.getElem?_body hi ▸ hx
  have hbefore : leave frame <:+ d.take (i - bodyLine frame) := by
    have hret := hl.levelled.ret _ hxd
    rw [epilogue_eq, List.take_add_one, hxd] at hret
    obtain ⟨y, hy⟩ := hret
    rw [← List.append_assoc] at hy
    exact ⟨y, List.append_inj_left' hy rfl⟩
  refine ⟨?_, fun h hh => ?_⟩
  · have htake : ls.take i = ls.take (bodyLine frame) ++ d.take (i - bodyLine frame) := by
      rw [← hl.drop_bodyLine, ← List.take_add, Nat.add_sub_cancel' hi]
    rw [htake]
    exact hbefore.trans (List.suffix_append _ _)
  · obtain ⟨y, hy⟩ := hbefore
    rw [hl.height_body hi hh, ← hy, level_append, level_leave]

end Laid

end Bpl.Stack

namespace Bpl

open Asm Lowering Stack

variable {a : Assembly} {f : Function} {ls : Code}

/-- The label of the trap stands in no function. -/
theorem trap_notMem {q : Program} (h : q.lower = .ok a) {t : Nat} (ht : a.trap = some t)
    (hls : ls ∈ a.functions) : .label (.numbered t) ∉ ls := by
  intro hmem
  obtain ⟨n, hn⟩ := exists_perm_range h
  have hnodup : (numbers a.code).Nodup := by
    have hall := hn.nodup_iff.2 List.nodup_range
    rw [filterMap_number?_labels] at hall
    exact (List.nodup_append.1 hall).2.1
  rw [Assembly.code, ht, numbers_append, List.nodup_append] at hnodup
  -- it would be defined in the trap again
  refine hnodup.2.2 t ?_ t ?_ rfl
  · exact List.mem_filterMap.2 ⟨_, List.mem_flatten_of_mem hls hmem, rfl⟩
  · simp [trapCode, numbers]

/-- The prologue of a function sets its frame pointer, and makes room for its locals. -/
theorem exists_prologue (frame : Frame) (x : String) :
    ∃ b, [.label (.function x)] ++ prologue frame = b ++ room frame ∧ b.length = entry frame ∧
      b[entry frame - 1]? = some (.instr (move .rsp .rbp)) ∧
        ∀ y ∈ b, (isJoint y = true → ∃ z, y = .label (.function z)) ∧ y ≠ .instr .ret := by
  refine ⟨.label (.function x) ::
    code ((if frame.isMain then [.push (.reg .rbp)] else []) ++ [move .rsp .rbp]), ?_, ?_, ?_, ?_⟩
  · rw [prologue, room, List.singleton_append, List.cons_append, code, List.map_append]
    rfl
  · unfold entry
    split <;> rfl
  · unfold entry
    split <;> rfl
  · split <;> simp [code, isJoint, move]

theorem laid_of_emits {d : Code} (hd : EmitsBlock a (Frame.layout f) f.body d)
    (hfew : ∀ e ∈ f.body.exprs, ∀ x ∈ e.nodes, x.FewArguments)
    (hfit : (Frame.layout f).size < 2 ^ 63)
    (hls : ls = [.label (.function f.name)] ++ prologue (Frame.layout f) ++ d ++
      epilogue (Frame.layout f))
    (hleaves : ∀ l, .instr (.jae l) ∈ ls → .label l ∉ ls) :
    ∃ b, Laid (Frame.layout f) ls b (d ++ epilogue (Frame.layout f)) ∧
      b[entry (Frame.layout f) - 1]? = some (.instr (move .rsp .rbp)) := by
  obtain ⟨b, hb, hlen, hset, hplain⟩ := exists_prologue (Frame.layout f) f.name
  refine ⟨b, ⟨?_, hlen, hplain, hfit, (hd.levelled hfew).append levelled_epilogue, hleaves⟩, hset⟩
  rw [hls, hb, List.append_assoc, List.append_assoc]

theorem disciplined_of_emits (he : EmitsFunction a f ls)
    (hfew : ∀ e ∈ f.body.exprs, ∀ x ∈ e.nodes, x.FewArguments)
    (hfit : (Frame.layout f).size < 2 ^ 63)
    (hleaves : ∀ l, .instr (.jae l) ∈ ls → .label l ∉ ls) : Disciplined a f ls := by
  cases he with
  | @mk d hd =>
    obtain ⟨b, hl, hset⟩ := laid_of_emits hd hfew hfit rfl hleaves
    have hentry : entry (Frame.layout f) - 1 < b.length := by
      rw [hl.set]
      unfold entry
      split <;> decide
    refine ⟨?_, hl.begins, ?_, ?_, ?_, ⟨d, hd, rfl, ?_⟩, ?_, ?_, ?_⟩
    · rw [hl.split, List.getElem?_append_left hentry, hset]
    · intro i h k hh hk
      rw [(hl.height_eq hh).2, (hl.height_eq hk).2]
    · exact fun i h hi hlt hh => hl.floor hi hlt hh
    · intro i x h hi hx hj hh
      rw [hl.height_body hi hh]
      exact hl.levelled.joint _ x (hl.getElem?_body hi ▸ hx) hj
    · intro i h hi hh
      rw [hl.height_body (Nat.le_add_right _ _) hh, Nat.add_sub_cancel_left]
      exact (hi.levelAt hfew).append_right.level
    · intro e he x hx d hd
      exact (hd.moves fun y hy => hfew e he y (Expr.nodes_subset e hx hy)).neutral
    · intro e he x hx d hd
      exact (hd.moves fun y hy => hfew e he y (Expr.nodes_subset e hx hy)).neutral
    · exact fun i hx => hl.ret hx

/-- The code of each function of what is analyzed with success keeps the stack discipline. Each line
has one height on all paths to it, that of the frame at labels, jumps and the bounds of statements,
and less than that only where the function is left; expressions leave the height as it was; and a
function is left with the stack as it was entered. No text in memory has more bytes than are
asked for here. -/
theorem functions_disciplined {source : String} {q : Program}
    (h : (analyze source).outcome = .ok q) (hsize : source.utf8ByteSize < 2 ^ 63) :
    ∃ a, (compile source).outcome = .ok a ∧
      List.Forall₂ (Disciplined a) q.functions a.functions := by
  obtain ⟨p, _, hd⟩ := exists_derives_of_analyze h
  obtain ⟨a, ha⟩ := hd.exists_lower
  have hcompile : (compile source).outcome = .ok a := by
    simp only [compile, Program.generate, Logged.outcome_bind_eq_ok, Except.mapError_eq_ok_iff]
    exact ⟨q, h, ha⟩
  have hl := linked_of_analyze h
  have hp := provides_of_makes (makes_of_lower hl.distinct ha)
  obtain ⟨hlen, hemits⟩ := List.forall₂_iff_zip.1 (emits_of_lower ha)
  refine ⟨a, hcompile, List.forall₂_iff_zip.2 ⟨hlen, fun {f ls} hmem => ?_⟩⟩
  obtain ⟨hf, hls⟩ := List.of_mem_zip hmem
  have hfit : (Frame.layout f).size < 2 ^ 63 := (hl.fits f hf).trans_lt (by decide)
  refine disciplined_of_emits (hemits hmem) (fewArguments_of_analyze h hsize f hf) hfit ?_
  intro l hjae
  obtain ⟨t, ht, rfl⟩ := (hemits hmem).resolved hp hl hf _ hjae
  exact trap_notMem ha ht hls

/-- A program with a loop, an array that is indexed, calls, and returns in the midst of a body. -/
def sumsUp : String :=
  "int a[3]; int sum(int *p, int n) \x7b int s; int i; s = 0; i = 0; " ++
    "while (i < n) \x7b s = s + p[i]; i = i + 1; \x7d if (n == 0) return 0; return s; \x7d " ++
    "void main(void) \x7b a[0] = read(); write(sum(a, 3)); \x7d"

theorem sumsUp_disciplined : sumsUp.utf8ByteSize < 2 ^ 63 ∧
    ∃ q a, (analyze sumsUp).outcome = .ok q ∧ q.functions.length = 2 ∧
      (compile sumsUp).outcome = .ok a ∧ List.Forall₂ (Disciplined a) q.functions a.functions ∧
        ∀ f ∈ q.functions, ∃ d, EmitsBlock a (Frame.layout f) f.body d ∧
          [.label (.function f.name)] ++ prologue (Frame.layout f) ++ d ++
            epilogue (Frame.layout f) ∈ a.functions := by
  have hsize : sumsUp.utf8ByteSize < 2 ^ 63 := by decide +kernel
  have hok : ((analyze sumsUp).outcome.toOption.any (·.functions.length == 2)) = true := by
    decide +kernel
  refine ⟨hsize, ?_⟩
  cases hq : (analyze sumsUp).outcome with
  | error e => simp [hq, Except.toOption] at hok
  | ok q =>
    rw [hq] at hok
    obtain ⟨a, ha, hdisciplined⟩ := functions_disciplined hq hsize
    refine ⟨q, a, rfl, beq_iff_eq.1 hok, ha, hdisciplined, fun f hf => ?_⟩
    obtain ⟨ls, hls, hf⟩ := hdisciplined.exists_of_mem_left hf
    obtain ⟨d, hd, rfl, _⟩ := hf.bound
    exact ⟨d, hd, hls⟩

end Bpl
