import Bpl.Event
import Bpl.Fault

namespace Bpl

/-- The result of a computation that reports events and may fail. What it reports before it
fails is kept. -/
@[ext] structure Logged (α : Type) where
  events : List Event
  outcome : Except Failure α

namespace Logged

def report (e : Event) : Logged Unit :=
  ⟨[e], .ok ()⟩

def ofExcept {α : Type} (r : Except Diagnostic α) : Logged α :=
  ⟨[], r.mapError .diagnostic⟩

def fault {α : Type} (f : Fault) : Logged α :=
  ⟨[], .error (.fault f)⟩

/-- Fails with a rule that the program breaks at `l`. -/
def refuse {α : Type} (l : Location) (v : Violation) : Logged α :=
  ⟨[], .error (.diagnostic (.semantic l v))⟩

def ensure (ok : Bool) (l : Location) (v : Violation) : Logged Unit :=
  if ok then ⟨[], .ok ()⟩ else refuse l v

def andThen {α β : Type} (x : Logged α) (f : α → Logged β) : Logged β :=
  match x.outcome with
  | .ok a => ⟨x.events ++ (f a).events, (f a).outcome⟩
  | .error e => ⟨x.events, .error e⟩

instance : Monad Logged where
  pure a := ⟨[], .ok a⟩
  bind := andThen

variable {α β γ : Type}

@[simp] theorem outcome_pure (a : α) : (pure a : Logged α).outcome = .ok a := rfl

@[simp] theorem events_pure (a : α) : (pure a : Logged α).events = [] := rfl

@[simp] theorem outcome_bind (x : Logged α) (f : α → Logged β) :
    (x >>= f).outcome = x.outcome >>= fun a => (f a).outcome := by
  change (andThen x f).outcome = _
  unfold andThen
  cases x.outcome <;> rfl

@[simp] theorem outcome_report (e : Event) : (report e).outcome = .ok () := rfl

@[simp] theorem outcome_refuse (l : Location) (v : Violation) :
    (refuse l v : Logged α).outcome = .error (.diagnostic (.semantic l v)) := rfl

@[simp] theorem outcome_ofExcept (r : Except Diagnostic α) :
    (ofExcept r).outcome = r.mapError .diagnostic := rfl

@[simp] theorem outcome_fault (f : Fault) : (fault f : Logged α).outcome = .error (.fault f) := rfl

private theorem pure_andThen (a : α) (f : α → Logged β) :
    andThen ⟨[], .ok a⟩ f = f a := by
  simp [andThen]

private theorem andThen_pure (x : Logged α) : andThen x (fun a => ⟨[], .ok a⟩) = x := by
  cases x with
  | mk events outcome => cases outcome <;> simp [andThen]

private theorem andThen_assoc (x : Logged α) (f : α → Logged β) (g : β → Logged γ) :
    andThen (andThen x f) g = andThen x fun a => andThen (f a) g := by
  cases x with
  | mk events outcome =>
    cases outcome with
    | error e => simp [andThen]
    | ok a => cases h : (f a).outcome <;> simp [andThen, h]

instance : LawfulMonad Logged :=
  LawfulMonad.mk' Logged
    (fun x => andThen_pure x)
    (fun a f => pure_andThen a f)
    (fun x f g => andThen_assoc x f g)

end Logged

end Bpl
