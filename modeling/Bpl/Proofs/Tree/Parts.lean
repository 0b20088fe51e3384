import Bpl.Proofs.Tree.Nodes

namespace Bpl

/-- Where a part stands in an expression. Arguments are counted from zero. -/
inductive Expr.Role where
  | target
  | value
  | left
  | right
  | operand (op : UnaryOp)
  | base
  | index
  | argument (callee : String) (number : Nat)

/-- The parts of an expression, each with its place. -/
def Expr.parts : Expr → List (Expr.Role × Expr)
  | .number .. | .string .. | .read _ | .name .. | .var .. | .decay .. => []
  | .assign _ target value => [(.target, target), (.value, value)]
  | .binary _ _ left right => [(.left, left), (.right, right)]
  | .unary _ op e => [(.operand op, e)]
  | .index _ base i => [(.base, base), (.index, i)]
  | .call _ x args => args.mapIdx fun k e => (.argument x k, e)

namespace Expr

/-- The base of an index is nothing else. -/
theorem exists_index_of_base {x y : Expr} (h : (.base, y) ∈ x.parts) :
    ∃ n i, x = .index n y i := by
  cases x with
  | index n base i =>
    simp only [parts, List.mem_cons, Prod.mk.injEq, true_and, reduceCtorEq, false_and,
      List.not_mem_nil, or_false] at h
    exact ⟨n, i, h ▸ rfl⟩
  | call n x args =>
    obtain ⟨k, _, h⟩ := List.mem_mapIdx.1 h
    cases h
  | _ => simp [parts] at h

theorem nodes_subset_nodesOfList {e : Expr} {es : List Expr} (h : e ∈ es) :
    e.nodes ⊆ nodesOfList es := by
  induction es with
  | nil => cases h
  | cons e' es ih =>
    rw [nodesOfList]
    rcases List.mem_cons.1 h with rfl | h
    · exact List.subset_append_left _ _
    · exact List.subset_append_of_subset_right _ (ih h)

theorem nodesOfList_append (es es' : List Expr) :
    nodesOfList (es ++ es') = nodesOfList es ++ nodesOfList es' := by
  induction es with
  | nil => rfl
  | cons e es ih => rw [List.cons_append, nodesOfList, nodesOfList, ih, List.append_assoc]

theorem nodesOfList_singleton (e : Expr) : nodesOfList [e] = e.nodes := by
  rw [nodesOfList, nodesOfList, List.append_nil]

theorem mem_nodes_of_part {x y : Expr} {role : Role} (h : (role, y) ∈ x.parts) : y ∈ x.nodes := by
  cases x with
  | assign _ l r | binary _ _ l r | index _ l r =>
    simp only [parts, List.mem_cons, Prod.mk.injEq, List.not_mem_nil, or_false] at h
    rcases h with ⟨_, rfl⟩ | ⟨_, rfl⟩
    · exact List.mem_cons_of_mem _ (List.mem_append_left _ y.mem_nodes_self)
    · exact List.mem_cons_of_mem _ (List.mem_append_right _ y.mem_nodes_self)
  | unary n op e =>
    obtain ⟨_, rfl⟩ := Prod.mk.inj (List.mem_singleton.1 h)
    exact List.mem_cons_of_mem _ y.mem_nodes_self
  | call n x args =>
    obtain ⟨k, hk, h⟩ := List.mem_mapIdx.1 h
    obtain ⟨_, rfl⟩ := Prod.mk.inj h
    have harg := List.getElem_mem hk
    exact List.mem_cons_of_mem _ (nodes_subset_nodesOfList harg (mem_nodes_self _))
  | _ => cases h

/-- `r` is a part of something in an expression. -/
def HasPart (e r : Expr) : Prop :=
  ∃ x ∈ e.nodes, ∃ role, (role, r) ∈ x.parts

/-- What a part of an expression has, the expression has. -/
theorem HasPart.of_part {e y r : Expr} {role : Role} (hy : (role, y) ∈ e.parts)
    (hs : y.nodes ⊆ e.nodes) (h : r = y ∨ y.HasPart r) : e.HasPart r := by
  rcases h with rfl | ⟨x, hx, hr⟩
  · exact ⟨e, e.mem_nodes_self, role, hy⟩
  · exact ⟨x, hs hx, hr⟩

end Expr

mutual

/-- What is in an expression is the whole of it, or a part of something in it. -/
theorem Expr.eq_or_hasPart {r : Expr} : ∀ e : Expr, r ∈ e.nodes → r = e ∨ e.HasPart r
  | .number .., h | .string .., h | .read _, h | .name .., h | .var .., h | .decay .., h =>
    .inl (List.mem_singleton.1 h)
  | .assign _ l r', h | .binary _ _ l r', h | .index _ l r', h => by
    rcases List.mem_cons.1 h with h | h
    · exact .inl h
    · right
      rcases List.mem_append.1 h with h | h
      · exact .of_part List.mem_cons_self
          (List.subset_cons_of_subset _ (List.subset_append_left _ _)) (Expr.eq_or_hasPart l h)
      · exact .of_part (List.mem_cons_of_mem _ List.mem_cons_self)
          (List.subset_cons_of_subset _ (List.subset_append_right _ _)) (Expr.eq_or_hasPart r' h)
  | .unary _ _ e, h => by
    rcases List.mem_cons.1 h with h | h
    · exact .inl h
    · exact .inr (.of_part List.mem_cons_self (List.subset_cons_self _ _) (Expr.eq_or_hasPart e h))
  | .call _ x args, h => by
    rcases List.mem_cons.1 h with h | h
    · exact .inl h
    · obtain ⟨y, hy, h⟩ := Expr.exists_of_mem_nodesOfList args h
      obtain ⟨k, hk, rfl⟩ := List.getElem_of_mem hy
      exact .inr (.of_part (List.mem_mapIdx.2 ⟨k, hk, rfl⟩)
        (List.subset_cons_of_subset _ (Expr.nodes_subset_nodesOfList hy)) h)

theorem Expr.exists_of_mem_nodesOfList {r : Expr} : ∀ es : List Expr, r ∈ nodesOfList es →
    ∃ y ∈ es, r = y ∨ y.HasPart r
  | [], h => by cases h
  | e :: es, h => by
    rcases List.mem_append.1 h with h | h
    · exact ⟨e, List.mem_cons_self, Expr.eq_or_hasPart e h⟩
    · obtain ⟨y, hy, h⟩ := Expr.exists_of_mem_nodesOfList es h
      exact ⟨y, List.mem_cons_of_mem _ hy, h⟩

end

end Bpl
