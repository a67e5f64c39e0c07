import TxnStore.Error

/-!
# Actions

An action works on a state and gives a value or an error. What it did to the state stays done also
when it ends in an error: an error says that something went wrong, not that nothing happened.
-/

namespace TxnStore

/-- A computation on a state `σ` that may fail and keeps its state when it does. -/
abbrev Action (σ α : Type) := ExceptT StoreError (StateM σ) α

namespace Action

variable {σ τ α β : Type}

/-- The outcome of an action and the state that it leaves. -/
def runOn (a : Action σ α) (s : σ) : Except StoreError α × σ := StateT.run (ExceptT.run a) s

/-- The action with a given effect. -/
def mk (f : σ → Except StoreError α × σ) : Action σ α := ExceptT.mk f

/-- The outcome of an action as a value, so that what follows can look at an error. -/
def attempt (a : Action σ α) : Action σ (Except StoreError α) :=
  mk fun s => let (r, s') := a.runOn s; (.ok r, s')

/-- An outcome that was obtained before. -/
def ofExcept (r : Except StoreError α) : Action σ α := mk fun s => (r, s)

def onPart (part : σ → τ) (update : σ → τ → σ) (a : Action τ α) : Action σ α :=
  mk fun s => let (r, t) := a.runOn (part s); (r, update s t)

/-- An action on the second part of a pair. -/
def onSecond (a : Action τ α) : Action (σ × τ) α := onPart Prod.snd (fun p t => (p.1, t)) a

@[simp] theorem runOn_mk (f : σ → Except StoreError α × σ) (s : σ) : (mk f).runOn s = f s := rfl

@[simp] theorem runOn_pure (a : α) (s : σ) : (pure a : Action σ α).runOn s = (.ok a, s) := rfl

@[simp] theorem runOn_throw (e : StoreError) (s : σ) :
    (throw e : Action σ α).runOn s = (.error e, s) := rfl

@[simp] theorem runOn_get (s : σ) : (get : Action σ σ).runOn s = (.ok s, s) := rfl

@[simp] theorem runOn_set (t s : σ) : (set t : Action σ PUnit).runOn s = (.ok ⟨⟩, t) := rfl

@[simp] theorem runOn_modify (f : σ → σ) (s : σ) :
    (modify f : Action σ PUnit).runOn s = (.ok ⟨⟩, f s) := rfl

@[simp] theorem runOn_ofExcept (r : Except StoreError α) (s : σ) :
    (ofExcept r : Action σ α).runOn s = (r, s) := rfl

@[simp] theorem runOn_attempt (a : Action σ α) (s : σ) :
    a.attempt.runOn s = (.ok (a.runOn s).1, (a.runOn s).2) := rfl

/-- What follows an action runs on the state that it leaves, unless the action fails. -/
theorem runOn_bind (a : Action σ α) (f : α → Action σ β) (s : σ) :
    (a >>= f).runOn s =
      match a.runOn s with
      | (.ok x, s') => (f x).runOn s'
      | (.error e, s') => (.error e, s') := by
  unfold runOn ExceptT.run StateT.run
  simp only [bind, ExceptT.bind, ExceptT.mk, StateT.bind, ExceptT.bindCont]
  rcases a s with ⟨_ | _, _⟩ <;> rfl

/-- A sequence of two actions succeeds only where both do. -/
theorem exists_of_runOn_bind {a : Action σ α} {f : α → Action σ β} {s s' : σ} {b : β}
    (h : (a >>= f).runOn s = (.ok b, s')) :
    ∃ x t, a.runOn s = (.ok x, t) ∧ (f x).runOn t = (.ok b, s') := by
  rw [runOn_bind] at h
  cases ha : a.runOn s with
  | mk r t =>
    rw [ha] at h
    cases r with
    | error e => simp at h
    | ok x => exact ⟨x, t, rfl, h⟩

/-- Changing the value of an action changes neither its error nor what it does to the state. -/
@[simp] theorem runOn_map (f : α → β) (a : Action σ α) (s : σ) :
    (f <$> a).runOn s = ((a.runOn s).1.map f, (a.runOn s).2) := by
  unfold runOn ExceptT.run StateT.run
  simp only [Functor.map, ExceptT.map, ExceptT.mk, StateT.bind, bind]
  rcases a s with ⟨_ | _, _⟩ <;> rfl

@[simp] theorem runOn_onPart (part : σ → τ) (update : σ → τ → σ) (a : Action τ α) (s : σ) :
    (onPart part update a).runOn s = ((a.runOn (part s)).1, update s (a.runOn (part s)).2) := rfl

@[simp] theorem runOn_onSecond (a : Action τ α) (p : σ × τ) :
    (onSecond a).runOn p = ((a.runOn p.2).1, (p.1, (a.runOn p.2).2)) := rfl

/-- What is answered where there is an answer. -/
theorem eq_ok_of_toOption {r : Except StoreError α} {a : α} (h : r.toOption = some a) :
    r = .ok a := by
  cases r with
  | error e => cases h
  | ok b => exact congrArg Except.ok (Option.some.inj h)

/-- What is answered and left behind where there is an answer. -/
theorem eq_ok_of_toOption_fst {r : Except StoreError α × σ} {a : α} (h : r.1.toOption = some a) :
    r = (.ok a, r.2) :=
  Prod.ext (eq_ok_of_toOption h) rfl

end Action

end TxnStore
