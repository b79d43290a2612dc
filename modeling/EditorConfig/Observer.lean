import EditorConfig.Error

/-! Observers of a resolution. A step that is watched has a result, or the cause for which there
is none, and in both cases the events reported up to then, in order. -/
namespace EditorConfig

inductive Event where
  | file (path : Text)
  | directory (path : Text)
  | config (path : Text)
  | line (line : Text)
  | option (key value : Text)
  | finished (path : Text)
  deriving DecidableEq, Repr

/-- What an observer lets pass; whatever it stops is left out of the resolution. -/
structure Observer where
  file : Text → Bool
  directory : Text → Bool
  config : Text → Bool
  line : Text → Bool
  option : Text → Text → Bool

def Observer.silent : Observer where
  file _ := true
  directory _ := true
  config _ := true
  line _ := true
  option _ _ := true

structure Watched (α : Type) where
  events : List Event
  result : Except Error α

namespace Watched
variable {α β : Type}

protected def pure (a : α) : Watched α := ⟨[], .ok a⟩

protected def bind (w : Watched α) (next : α → Watched β) : Watched β :=
  match w.result with
  | .error e => ⟨w.events, .error e⟩
  | .ok a =>
    let w' := next a
    ⟨w.events ++ w'.events, w'.result⟩

protected def map (f : α → β) (w : Watched α) : Watched β := ⟨w.events, w.result.map f⟩

instance : Monad Watched where
  pure := Watched.pure
  bind := Watched.bind
  map := Watched.map

def report (event : Event) : Watched Unit := ⟨[event], .ok ()⟩

def fail (e : Error) : Watched α := ⟨[], .error e⟩

def ofExcept (r : Except Error α) : Watched α := ⟨[], r⟩

def mapError (f : Error → Error) (w : Watched α) : Watched α := ⟨w.events, w.result.mapError f⟩

@[ext] theorem ext {v w : Watched α} (he : v.events = w.events) (hr : v.result = w.result) :
    v = w := by
  cases v; cases w; cases he; cases hr; rfl

theorem bind_ok {w : Watched α} {a : α} (h : w.result = .ok a) (next : α → Watched β) :
    w >>= next = ⟨w.events ++ (next a).events, (next a).result⟩ := by
  simp [bind, Watched.bind, h]

theorem bind_error {w : Watched α} {e : Error} (h : w.result = .error e) (next : α → Watched β) :
    w >>= next = ⟨w.events, .error e⟩ := by
  simp [bind, Watched.bind, h]

@[simp] theorem events_map (f : α → β) (w : Watched α) : (f <$> w).events = w.events := rfl

@[simp] theorem result_map (f : α → β) (w : Watched α) : (f <$> w).result = w.result.map f := rfl

@[simp] theorem events_pure (a : α) : (pure a : Watched α).events = [] := rfl

@[simp] theorem result_pure (a : α) : (pure a : Watched α).result = .ok a := rfl

@[simp] theorem report_bind (event : Event) (next : Unit → Watched α) :
    report event >>= next = ⟨event :: (next ()).events, (next ()).result⟩ := rfl

theorem bind_pure_comp (f : α → β) (w : Watched α) : (w >>= fun a => pure (f a)) = f <$> w := by
  ext1 <;> cases h : w.result <;>
    simp [bind, Watched.bind, pure, Watched.pure, h, Except.map]

instance : LawfulMonad Watched := LawfulMonad.mk' Watched
  (by
    intro α w
    ext1
    · rfl
    · cases h : w.result <;> simp [h, Except.map])
  (by intro α β a next; ext1 <;> simp [bind, pure, Watched.bind, Watched.pure])
  (by
    intro α β γ w f g
    cases h : w.result with
    | error e => simp [bind, Watched.bind, h]
    | ok a => cases h' : (f a).result <;> simp [bind, Watched.bind, h, h'])
  (by intro α β a w; rfl)
  (by intro α β v w; rfl)
  (by intro α β v w; rfl)
  (by intro α β f w; exact bind_pure_comp f w)

end Watched
end EditorConfig
