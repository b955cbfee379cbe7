import VirtualShell.FileSystem.Walk
import VirtualShell.Storage.Faulty

/-!
What actions come to. An action answers or fails, and leaves a store behind either way; `Yields` says that
it answers, and `Keeps` relates the stores before and after it whatever it answers.
-/
namespace VirtualShell.Storing
variable {σ τ α β : Type}

/-- The answer or error of an action on a store, and the store afterwards. -/
def on (act : Storing σ α) (store : σ) : Except StorageError α × σ := act store

@[simp] theorem on_pure (a : α) (s : σ) : (pure a : Storing σ α).on s = (.ok a, s) := rfl

@[simp] theorem on_throw (e : StorageError) (s : σ) : (throw e : Storing σ α).on s = (.error e, s) := rfl

@[simp] theorem on_get (s : σ) : (get : Storing σ σ).on s = (.ok s, s) := rfl

@[simp] theorem on_set (s t : σ) : (set t : Storing σ PUnit).on s = (.ok ⟨⟩, t) := rfl

@[simp] theorem on_modify (f : σ → σ) (s : σ) : (modify f : Storing σ PUnit).on s = (.ok ⟨⟩, f s) := rfl

theorem on_bind (act : Storing σ α) (f : α → Storing σ β) (s : σ) :
    (act >>= f).on s = match act.on s with
      | (.ok a, s') => (f a).on s'
      | (.error e, s') => (.error e, s') := by
  simp only [on, bind, ExceptT.bind, ExceptT.mk, StateT.bind]
  rcases act s with ⟨_ | _, _⟩ <;> rfl

theorem on_bind_ok {act : Storing σ α} {f : α → Storing σ β} {s s' : σ} {a : α} (h : act.on s = (.ok a, s')) :
    (act >>= f).on s = (f a).on s' := by
  rw [on_bind, h]

theorem on_bind_error {act : Storing σ α} {f : α → Storing σ β} {s s' : σ} {e : StorageError}
    (h : act.on s = (.error e, s')) : (act >>= f).on s = (.error e, s') := by
  rw [on_bind, h]

@[simp] theorem on_map (f : α → β) (act : Storing σ α) (s : σ) :
    (f <$> act).on s = ((act.on s).1.map f, (act.on s).2) := by
  rw [map_eq_pure_bind, on_bind]
  cases hs : act.on s with
  | mk result s' => cases result <;> rfl

theorem on_map_error {f : α → β} {act : Storing σ α} {s s' : σ} {e : StorageError} (h : (f <$> act).on s = (.error e, s')) :
    act.on s = (.error e, s') := by
  rw [on_map] at h
  obtain ⟨hresult,rfl⟩ := Prod.mk.inj h
  cases ha : act.on s with
  | mk result s' =>
    rw [ha] at hresult
    cases result with
    | error e' => rw [Except.error.inj hresult]
    | ok a => simp [Except.map] at hresult

@[simp] theorem on_within (get : τ → σ) (set : σ → τ → τ) (act : Storing σ α) (whole : τ) :
    (act.within get set).on whole = ((act.on (get whole)).1, set (act.on (get whole)).2 whole) := rfl

@[simp] theorem on_caught (act : Storing σ α) (s : σ) :
    act.caught.on s = (.ok (act.on s).1, (act.on s).2) := rfl

/-- What is not an error is an answer. -/
theorem eq_ok_of_isOk {result : Except StorageError α} (h : result.isOk = true) (other : α) :
    result = .ok (result.toOption.getD other) := by
  cases result with
  | error e => simp [Except.isOk, Except.toBool] at h
  | ok a => rfl

/-! ### Actions that answer -/

/-- The action answers, and its answer and the store afterwards are as wanted. -/
def Yields (act : Storing σ α) (s : σ) (wanted : α → σ → Prop) : Prop :=
  ∃ a s', act.on s = (.ok a, s') ∧ wanted a s'

namespace Yields
variable {act : Storing σ α} {f : α → Storing σ β} {s : σ} {P Q : α → σ → Prop} {R : β → σ → Prop}

theorem pure {a : α} (h : P a s) : Yields (Pure.pure a) s P := ⟨a, s, rfl, h⟩

theorem mono (h : Yields act s P) (hpq : ∀ a s', P a s' → Q a s') : Yields act s Q := by
  obtain ⟨a,s',he,hp⟩ := h
  exact ⟨a,s',he,hpq a s' hp⟩

theorem bind (h : Yields act s P) (hf : ∀ a s', P a s' → Yields (f a) s' R) : Yields (act >>= f) s R := by
  obtain ⟨a,s',he,hp⟩ := h
  obtain ⟨b,s'',hf',hr⟩ := hf a s' hp
  exact ⟨b,s'',by rw [on_bind_ok he, hf'],hr⟩

/-- An action whose answer and store are known. -/
theorem of_on {a : α} {t : σ} (h : act.on s = (.ok a, t)) (hp : P a t) : Yields act s P := ⟨a,t,h,hp⟩

theorem caught (h : Yields act s P) : Yields act.caught s fun result after => ∃ a, result = .ok a ∧ P a after := by
  obtain ⟨a,s',he,hp⟩ := h
  exact ⟨.ok a,s',by rw [on_caught, he],a,rfl,hp⟩

theorem get {R : σ → σ → Prop} (h : R s s) : Yields (MonadState.get : Storing σ σ) s R := ⟨s, s, rfl, h⟩

end Yields

/-! ### Actions that may fail -/

/-- The action fails and leaves a store as allowed, or it answers as wanted. -/
def Ends (act : Storing σ α) (s : σ) (failed : σ → Prop) (wanted : α → σ → Prop) : Prop :=
  match act.on s with
  | (.error _, s') => failed s'
  | (.ok a, s') => wanted a s'

namespace Ends
variable {act : Storing σ α} {f : α → Storing σ β} {s : σ} {failed failed' : σ → Prop} {P Q : α → σ → Prop} {R : β → σ → Prop}

theorem pure {a : α} (h : P a s) : Ends (Pure.pure a) s failed P := h

theorem throw {e : StorageError} (h : failed s) : Ends (MonadExcept.throw e) s failed P := h

theorem mono (h : Ends act s failed P) (hfailed : ∀ s', failed s' → failed' s') (hpq : ∀ a s', P a s' → Q a s') :
    Ends act s failed' Q := by
  cases he : act.on s with
  | mk result s' =>
    rw [Ends, he] at h ⊢
    cases result with
    | error e => exact hfailed s' h
    | ok a => exact hpq a s' h

theorem bind (h : Ends act s failed P) (hf : ∀ a s', P a s' → Ends (f a) s' failed R) : Ends (act >>= f) s failed R := by
  cases he : act.on s with
  | mk result s' =>
    rw [Ends, he] at h
    cases result with
    | error e => rwa [Ends, on_bind_error he]
    | ok a =>
      rw [Ends, on_bind_ok he]
      exact hf a s' h

/-- What follows an action of which the answer is known. -/
theorem bind_ok {a : α} {t : σ} (he : act.on s = (.ok a, t)) (h : Ends (f a) t failed R) : Ends (act >>= f) s failed R := by
  rwa [Ends, on_bind_ok he]

theorem get_bind {f : σ → Storing σ β} (h : Ends (f s) s failed R) : Ends (MonadState.get >>= f) s failed R := h

/-- What follows an action that never answers does not matter. -/
theorem bind_never (h : Ends act s failed fun _ _ => False) : Ends (act >>= f) s failed R :=
  h.bind fun _ _ hf => False.elim hf

theorem of_ok {a : α} {t : σ} (h : Ends act s failed P) (he : act.on s = (.ok a, t)) : P a t := by rwa [Ends, he] at h

theorem of_error {e : StorageError} {t : σ} (h : Ends act s failed P) (he : act.on s = (.error e, t)) : failed t := by
  rwa [Ends, he] at h

theorem of_fst_ok {a : α} (h : Ends act s failed P) (he : (act.on s).1 = .ok a) : P a (act.on s).2 := h.of_ok (Prod.ext he rfl)

theorem of_fst_error {e : StorageError} (h : Ends act s failed P) (he : (act.on s).1 = .error e) : failed (act.on s).2 :=
  h.of_error (Prod.ext he rfl)

/-- What an action on a part comes to, it comes to on the whole. -/
theorem lift {acted : Storing τ α} {whole : τ} {failed : τ → Prop} {wanted : α → τ → Prop} (put : σ → τ)
    (hon : acted.on whole = ((act.on s).1, put (act.on s).2))
    (h : Ends act s (fun after => failed (put after)) fun a after => wanted a (put after)) : Ends acted whole failed wanted := by
  rw [Ends, hon]
  cases he : act.on s with
  | mk result after =>
    cases result with
    | error e => exact h.of_error he
    | ok a => exact h.of_ok he

/-- An action that cannot fail answers. -/
theorem yields (h : Ends act s failed P) (hno : ∀ s', ¬ failed s') : Yields act s P := by
  cases he : act.on s with
  | mk result s' =>
    cases result with
    | error e => exact absurd (h.of_error he) (hno s')
    | ok a => exact ⟨a,s',he,h.of_ok he⟩

end Ends

/-! ### Actions that keep an invariant -/

/-- What holds of the store before the action holds after it too, whatever it answers. -/
def Preserves (inv : σ → Prop) (act : Storing σ α) : Prop := ∀ s, inv s → inv (act.on s).2

namespace Preserves
variable {inv : σ → Prop} {act : Storing σ α} {f : α → Storing σ β}

theorem pure (a : α) : Preserves inv (Pure.pure a : Storing σ α) := fun _ h => h

theorem throw (e : StorageError) : Preserves inv (MonadExcept.throw e : Storing σ α) := fun _ h => h

theorem get : Preserves inv (MonadState.get : Storing σ σ) := fun _ h => h

/-- What follows may rely on how it was reached. -/
theorem bind_of (h : Preserves inv act) (hf : ∀ a s s', inv s → act.on s = (.ok a, s') → Preserves inv (f a)) :
    Preserves inv (act >>= f) := by
  intro s hs
  have ha := h s hs
  cases he : act.on s with
  | mk result s' =>
    rw [he] at ha
    cases result with
    | error e => rw [on_bind_error he]; exact ha
    | ok a => rw [on_bind_ok he]; exact hf a s s' hs he s' ha

theorem bind (h : Preserves inv act) (hf : ∀ a, Preserves inv (f a)) : Preserves inv (act >>= f) :=
  h.bind_of fun a _ _ _ _ => hf a

/-- What follows a look at the store may rely on what holds of it. -/
theorem get_bind {f : σ → Storing σ β} (hf : ∀ s, inv s → Preserves inv (f s)) : Preserves inv (MonadState.get >>= f) :=
  fun s hs => hf s hs s hs

theorem map (g : α → β) (h : Preserves inv act) : Preserves inv (g <$> act) := fun s hs => by
  rw [on_map]
  exact h s hs

theorem caught (h : Preserves inv act) : Preserves inv act.caught := h

theorem and {other : σ → Prop} (h : Preserves inv act) (ho : Preserves other act) : Preserves (fun s => inv s ∧ other s) act :=
  fun s hs => ⟨h s hs.1,ho s hs.2⟩

theorem or {other : σ → Prop} (h : Preserves inv act) (ho : Preserves other act) : Preserves (fun s => inv s ∨ other s) act :=
  fun s hs => hs.imp (h s) (ho s)

theorem of_ends (h : ∀ s, inv s → act.Ends s inv fun _ => inv) : Preserves inv act := by
  intro s hs
  cases he : act.on s with
  | mk result s' =>
    cases result with
    | error e => exact (h s hs).of_error he
    | ok a => exact (h s hs).of_ok he

/-- An action that never answers keeps what holds of the store when it fails. -/
theorem of_never (h : ∀ s, inv s → act.Ends s inv fun _ _ => False) : Preserves inv act :=
  .of_ends fun s hs => (h s hs).mono (fun _ h => h) fun _ _ => False.elim

/-- What is known of the answer, with the invariant. -/
theorem ends {s : σ} {wanted : α → Prop} (h : Preserves inv act) (hs : inv s)
    (hwanted : ∀ a s', act.on s = (.ok a, s') → wanted a) : act.Ends s inv fun a s' => inv s' ∧ wanted a := by
  have ha := h s hs
  cases he : act.on s with
  | mk result s' =>
    rw [he] at ha
    rw [Ends, he]
    cases result with
    | error e => exact ha
    | ok a => exact ⟨ha,hwanted a s' he⟩

theorem ite {c : Prop} [Decidable c] {a b : Storing σ α} (ha : Preserves inv a) (hb : Preserves inv b) :
    Preserves inv (if c then a else b) := by
  split
  · exact ha
  · exact hb

/-- An action on a part keeps what follows from an invariant of the part. -/
theorem within {get : τ → σ} {set : σ → τ → τ} {whole : τ → Prop} (h : Preserves inv act)
    (hget : ∀ t, whole t → inv (get t)) (hset : ∀ t s, whole t → inv s → whole (set s t)) :
    Preserves whole (act.within get set) := by
  intro t ht
  rw [on_within]
  exact hset t _ ht (h _ (hget t ht))

end Preserves

/-! ### Actions that cannot tell stores apart -/

/-- On related stores the action answers the same, and it leaves related stores. -/
def Agrees (rel : σ → σ → Prop) (act : Storing σ α) : Prop :=
  ∀ s t, rel s t → (act.on s).1 = (act.on t).1 ∧ rel (act.on s).2 (act.on t).2

namespace Agrees
variable {rel : σ → σ → Prop} {act : Storing σ α} {f : α → Storing σ β}

theorem pure (a : α) : Agrees rel (Pure.pure a : Storing σ α) := fun _ _ h => ⟨rfl,h⟩

theorem throw (e : StorageError) : Agrees rel (MonadExcept.throw e : Storing σ α) := fun _ _ h => ⟨rfl,h⟩

/-- What follows may rely on how it was reached. -/
theorem bind_of (h : Agrees rel act) (hf : ∀ a s t s', rel s t → act.on s = (.ok a, s') → Agrees rel (f a)) :
    Agrees rel (act >>= f) := by
  intro s t hst
  obtain ⟨hsame,hrel⟩ := h s t hst
  cases hs : act.on s with
  | mk result s' =>
    cases ht : act.on t with
    | mk result' t' =>
      rw [hs, ht] at hsame hrel
      obtain rfl : result = result' := hsame
      cases result with
      | error e =>
        rw [on_bind_error hs, on_bind_error ht]
        exact ⟨rfl,hrel⟩
      | ok a =>
        rw [on_bind_ok hs, on_bind_ok ht]
        exact hf a s t s' hst hs s' t' hrel

theorem bind (h : Agrees rel act) (hf : ∀ a, Agrees rel (f a)) : Agrees rel (act >>= f) :=
  h.bind_of fun a _ _ _ _ _ => hf a

/-- What follows a look at the store has to see the same in related stores. -/
theorem get_bind {f : σ → Storing σ β} (hsame : ∀ s t, rel s t → f s = f t) (h : ∀ s t, rel s t → Agrees rel (f s)) :
    Agrees rel (MonadState.get >>= f) := by
  intro s t hst
  change ((f s).on s).1 = ((f t).on t).1 ∧ rel ((f s).on s).2 ((f t).on t).2
  rw [← hsame s t hst]
  exact h s t hst s t hst

end Agrees
end VirtualShell.Storing

/-! ### Calls that are made to fail -/

namespace VirtualShell.Faulty
open Storing
variable {σ α : Type}

/-- A call that is to fail only counts; any other is made on the store beneath. -/
theorem on_attempt (call : Call) (act : Storing σ α) (faulty : Faulty σ) :
    (attempt call act).on faulty =
      if faulty.fails faulty.calls call then
        (.error (.backend (call.name ++ " failed")), { faulty with calls := faulty.calls + 1 })
      else ((act.on faulty.store).1, { faulty with store := (act.on faulty.store).2, calls := faulty.calls + 1 }) := by
  rw [attempt, on_bind_ok (on_get _), on_bind_ok (on_set _ _)]
  split <;> rfl

end VirtualShell.Faulty
