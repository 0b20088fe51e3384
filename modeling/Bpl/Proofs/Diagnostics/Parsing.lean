import Bpl.Proofs.Diagnostics.Places
import Bpl.Proofs.Parsing.Uniform

namespace Bpl

variable {g : Relocation}

/-- What is put elsewhere as a whole has its places there. -/
theorem places_moved_list {α : Type} [Movable α] [HasPlaces α]
    (h : ∀ a : α, places (moved g a) = (places a).map g.place) (as : List α) :
    places (moved g as) = (places as).map g.place := by
  change (as.map (moved g)).flatMap places = (as.flatMap places).map g.place
  rw [List.flatMap_map, List.map_flatMap]
  exact List.flatMap_congr fun a _ => h a

theorem places_moved_option {α : Type} [Movable α] [HasPlaces α]
    (h : ∀ a : α, places (moved g a) = (places a).map g.place) :
    ∀ o : Option α, places (moved g o) = (places o).map g.place
  | none => rfl
  | some a => places_moved_list h [a]

theorem Expr.location_moved (e : Expr) : (Movable.moved g e).location = g.place e.location := by
  cases e <;> rfl

mutual

theorem Expr.nodes_moved : ∀ e : Expr, (e.moved g).nodes = e.nodes.map (Movable.moved g)
  | .number .. | .string .. | .read _ | .name .. | .var .. | .decay .. => rfl
  | .assign n l r | .binary n _ l r | .index n l r => by
    rw [Expr.moved, nodes, nodes, List.map_cons, List.map_append, l.nodes_moved, r.nodes_moved]
    rfl
  | .unary n op e => by
    rw [Expr.moved, nodes, nodes, List.map_cons, e.nodes_moved]
    rfl
  | .call n x args => by
    rw [Expr.moved, nodes, nodes, List.map_cons, Expr.nodesOfList_moved args]
    rfl

theorem Expr.nodesOfList_moved : ∀ es : List Expr,
    nodesOfList (Expr.movedList g es) = (nodesOfList es).map (Movable.moved g)
  | [] => rfl
  | e :: es => by
    rw [Expr.movedList, nodesOfList, nodesOfList, List.map_append, e.nodes_moved,
      Expr.nodesOfList_moved es]

end

theorem Expr.places_moved (e : Expr) : places (Movable.moved g e) = (places e).map g.place := by
  change ((e.moved g).nodes).map location = (e.nodes.map location).map g.place
  rw [e.nodes_moved, List.map_map, List.map_map]
  exact List.map_congr_left fun x _ => x.location_moved

theorem Variable.places_moved (v : Variable) :
    places (Movable.moved g v) = (places v).map g.place := rfl

mutual

theorem Stmt.places_moved : ∀ s : Stmt, places (Movable.moved g s) = (places s).map g.place
  | .compound l b => congrArg (g.place l :: ·) b.places_moved
  | .ifThen l e yes => by
    change g.place l :: (places (Movable.moved g e) ++ places (Movable.moved g yes)) =
      g.place l :: (places e ++ places yes).map g.place
    rw [List.map_append, e.places_moved, yes.places_moved]
  | .ifElse l e yes no => by
    change g.place l :: (places (Movable.moved g e) ++
        (places (Movable.moved g yes) ++ places (Movable.moved g no))) =
      g.place l :: (places e ++ (places yes ++ places no)).map g.place
    rw [List.map_append, List.map_append, e.places_moved, yes.places_moved, no.places_moved]
  | .whileDo l e body => by
    change g.place l :: (places (Movable.moved g e) ++ places (Movable.moved g body)) =
      g.place l :: (places e ++ places body).map g.place
    rw [List.map_append, e.places_moved, body.places_moved]
  | .ret l e => congrArg (g.place l :: ·) (places_moved_option Expr.places_moved e)
  | .expr l e | .write l e => congrArg (g.place l :: ·) e.places_moved
  | .writeln _ => rfl

theorem Block.places_moved : ∀ b : Block, places (Movable.moved g b) = (places b).map g.place
  | .mk l vs ss => by
    change g.place l :: (places (Movable.moved g vs) ++ Stmt.placesOfList (Stmt.movedList g ss)) =
      g.place l :: (places vs ++ Stmt.placesOfList ss).map g.place
    rw [List.map_append, places_moved_list Variable.places_moved, Stmt.placesOfList_moved ss]

theorem Stmt.placesOfList_moved : ∀ ss : List Stmt,
    Stmt.placesOfList (Stmt.movedList g ss) = (Stmt.placesOfList ss).map g.place
  | [] => rfl
  | s :: ss => by
    rw [Stmt.movedList, Stmt.placesOfList, Stmt.placesOfList, List.map_append,
      Stmt.placesOfList_moved ss]
    exact congrArg (· ++ _) s.places_moved

end

theorem Decl.places_moved : ∀ d : Decl, places (Movable.moved g d) = (places d).map g.place
  | .var _ => rfl
  | .function f => by
    change g.place f.location :: (places (Movable.moved g f.params) ++
        (places (Movable.moved g f.body) ++ places (Movable.moved g f.locals))) =
      g.place f.location :: (places f.params ++ (places f.body ++ places f.locals)).map g.place
    rw [List.map_append, List.map_append, places_moved_list Variable.places_moved,
      places_moved_list Variable.places_moved, f.body.places_moved]

/-- What does not change when places are put elsewhere has only places that stay. -/
theorem place_eq_of_moved {ds : List Decl} (h : moved g ds = ds) {l : Location}
    (hl : l ∈ places ds) : g.place l = l := by
  have hplaces := places_moved_list (g := g) Decl.places_moved ds
  rw [h] at hplaces
  exact List.map_inj_left.1 (hplaces.symm.trans (List.map_id _).symm) l hl

theorem Diagnostic.place_eq_of_moved {d : Diagnostic} (h : moved g d = d) {l : Location}
    (hl : d.location? = some l) : g.place l = l := by
  have hlocation : (moved g d).location? = d.location?.map g.place := by cases d <;> rfl
  rw [h, hl] at hlocation
  exact (Option.some.inj hlocation).symm

/-- One place is put elsewhere, and all others stay. -/
def Relocation.away (l : Location) : Relocation :=
  ⟨fun m => if m = l then ⟨l.line + 1, l.column⟩ else m, id⟩

theorem Relocation.away_ne (l : Location) : (away l).place l ≠ l := by
  intro h
  have hline := congrArg Location.line h
  simp [away] at hline

variable {P : Location → Prop}

/-- A place without the property is none of the tokens' places. -/
theorem moved_away {ts : List Token} (hts : InPlaces P ts) {l : Location} (hl : ¬ P l) :
    moved (.away l) ts = ts := by
  have hstay : ∀ t ∈ ts, moved (.away l) t = t := fun t ht => by
    have hne : t.location ≠ l := fun heq => hl (heq ▸ inPlaces_token.1 (inPlaces_list.1 hts t ht))
    change Token.mk t.kind t.text t.start (if t.location = l then _ else t.location) = t
    rw [if_neg hne]
  exact (List.map_congr_left hstay).trans (List.map_id ts)

/-- A parser adds no places: its trees and its failures have those of the tokens. -/
theorem parse_keeps {ts : List Token} (hne : ts ≠ []) (hts : InPlaces P ts) :
    Keeps P (parse ts) := by
  let fin := (ts.getLast?.map Token.location).getD default
  have hfin : P fin := by
    change P ((ts.getLast?.map Token.location).getD default)
    rw [List.getLast?_eq_getLast_of_ne_nil hne]
    exact inPlaces_token.1 (inPlaces_list.1 hts _ (List.getLast_mem hne))
  let w (g : Relocation) : Parsing.Twins := ⟨g, fin, fin, [], [], nofun, nofun⟩
  have hconcur : ∀ g, moved g ts = ts → (w g).Concur (parse ts) (parse ts) := fun g hg => by
    have hdecls := (w g).decls_concur ts
    rwa [Parsing.Twins.left, Parsing.Twins.right, hg, List.append_nil] at hdecls
  -- A place that none of the tokens has can be put elsewhere without a change to them. Were it in
  -- what is parsed, it would not stay there.
  cases hparse : parse ts with
  | ok ds =>
    rw [hparse] at hconcur
    refine .ok fun l hl => ?_
    by_contra hP
    have hsame := Except.ok.inj (hconcur _ (moved_away hts hP)).eq_of_ok
    exact Relocation.away_ne l (place_eq_of_moved hsame.symm hl)
  | error d =>
    rw [hparse] at hconcur
    have hended : ∀ expected, d = Parsing.unexpected fin expected [] →
        Keeps P (.error d : Except Diagnostic (List Decl)) := by
      rintro expected rfl
      exact .error rfl hfin
    rcases (hconcur .stay (moved_stay_list Token.moved_stay ts)).eq_of_error with
      ⟨l, hl, _⟩ | ⟨expected, h, _⟩
    · by_cases hP : P l
      · exact .error hl hP
      rcases (hconcur _ (moved_away hts hP)).eq_of_error with ⟨_, _, h⟩ | ⟨expected, h, _⟩
      · have hsame := Except.error.inj h
        exact absurd (d.place_eq_of_moved hsame.symm hl) (Relocation.away_ne l)
      · exact hended expected h
    · exact hended expected h

end Bpl
