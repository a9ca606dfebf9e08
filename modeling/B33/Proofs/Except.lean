import Mathlib.Data.List.Forall2

/-!
# Results that may be refused

Sequences of steps, each of which can be refused, taken apart. A sequence gives a result exactly
when each of its steps does.
-/
namespace B33

variable {ε α β : Type}

@[simp] theorem ok_bind (a : α) (f : α → Except ε β) : (Except.ok a >>= f) = f a := rfl

@[simp] theorem error_bind (e : ε) (f : α → Except ε β) :
    ((Except.error e : Except ε α) >>= f) = .error e := rfl

theorem bind_eq_ok_iff {x : Except ε α} {f : α → Except ε β} {b : β} :
    (x >>= f) = .ok b ↔ ∃ a, x = .ok a ∧ f a = .ok b := by
  cases x with
  | error e => simp
  | ok a => simp

theorem map_eq_ok_iff {x : Except ε α} {f : α → β} {b : β} :
    x.map f = .ok b ↔ ∃ a, x = .ok a ∧ f a = b := by
  cases x with
  | error e => simp [Except.map]
  | ok a => simp [Except.map]

theorem exists_of_isOk {x : Except ε α} (h : x.isOk = true) : ∃ a, x = .ok a := by
  cases x with
  | error e => cases h
  | ok a => exact ⟨a, rfl⟩

theorem toOption_eq_some_iff {x : Except ε α} {a : α} : x.toOption = some a ↔ x = .ok a := by
  cases x with
  | error e => simp [Except.toOption]
  | ok b => simp [Except.toOption]

theorem pure_eq_ok_iff {a b : α} : (pure a : Except ε α) = .ok b ↔ a = b := by
  rw [show (pure a : Except ε α) = .ok a from rfl, Except.ok.injEq]

/-- What is refused stands before the rest. -/
theorem guard_eq_ok_iff {γ : Type} {p : Prop} [Decidable p] {e : ε} {f : γ → Except ε β}
    {x : Except ε β} {b : β} :
    (if p then throw e >>= f else x) = .ok b ↔ ¬p ∧ x = .ok b := by
  by_cases h : p
  · simp [h, throw, throwThe, MonadExceptOf.throw]
  · simp [h]

/-- A step that reads and changes a state hands both on. -/
theorem state_bind_apply {σ : Type} (x : StateT σ (Except ε) α) (f : α → StateT σ (Except ε) β)
    (s : σ) : (x >>= f) s = x s >>= fun r => f r.1 r.2 := rfl

theorem state_bind_eq_ok_iff {σ : Type} {x : StateT σ (Except ε) α}
    {f : α → StateT σ (Except ε) β} {s : σ} {r : β × σ} :
    (x >>= f) s = .ok r ↔ ∃ a t, x s = .ok (a, t) ∧ f a t = .ok r := by
  rw [state_bind_apply, bind_eq_ok_iff, Prod.exists]

theorem state_guard_apply {σ γ : Type} {p : Prop} [Decidable p] {e : ε}
    {f : γ → StateT σ (Except ε) β} {x : StateT σ (Except ε) β} {s : σ} :
    (if p then throw e >>= f else x) s = if p then .error e else x s := by
  by_cases h : p
  · rw [if_pos h, if_pos h]
    rfl
  · rw [if_neg h, if_neg h]

/-- A list of steps gives a list of results, one for each. -/
theorem mapM_eq_ok_iff {f : α → Except ε β} {as : List α} {bs : List β} :
    as.mapM f = .ok bs ↔ List.Forall₂ (fun a b => f a = .ok b) as bs := by
  induction as generalizing bs with
  | nil =>
      simp only [List.mapM_nil, pure_eq_ok_iff, List.forall₂_nil_left_iff]
      exact eq_comm
  | cons a as ih =>
      simp only [List.mapM_cons, bind_eq_ok_iff, pure_eq_ok_iff, ih, List.forall₂_cons_left_iff]
      constructor
      · rintro ⟨b, hb, bs, hbs, rfl⟩
        exact ⟨b, bs, hb, hbs, rfl⟩
      · rintro ⟨b, bs, hb, hbs, rfl⟩
        exact ⟨b, hb, bs, hbs, rfl⟩

theorem exists_of_mapM_eq_ok {f : α → Except ε β} {as : List α} {bs : List β}
    (h : as.mapM f = .ok bs) : ∀ a ∈ as, ∃ b, f a = .ok b := by
  have hall := mapM_eq_ok_iff.mp h
  clear h
  induction hall with
  | nil => simp
  | cons hab _ ih => exact List.forall_mem_cons.mpr ⟨⟨_, hab⟩, ih⟩

theorem mapM_congr {f g : α → Except ε β} {as : List α}
    (h : ∀ a ∈ as, f a = g a) : as.mapM f = as.mapM g := by
  induction as with
  | nil => rfl
  | cons a as ih =>
      rw [List.mapM_cons, List.mapM_cons, h a List.mem_cons_self,
        ih fun b hb => h b (List.mem_cons_of_mem _ hb)]

/-- A result with one function over what is given and another over what is refused. -/
def mapBoth {ε' : Type} (e : ε → ε') (f : α → β) : Except ε α → Except ε' β
  | .ok a => .ok (f a)
  | .error err => .error (e err)

@[simp] theorem mapBoth_id (x : Except ε α) : mapBoth id id x = x := by
  cases x <;> rfl

section
variable {ε' γ δ : Type} {e : ε → ε'} {f : α → γ} {g : β → δ}

theorem mapBoth_eq_ok_iff {x : Except ε α} {c : γ} :
    mapBoth e f x = .ok c ↔ ∃ a, x = .ok a ∧ f a = c := by
  cases x with
  | error err => simp [mapBoth]
  | ok a => simp [mapBoth]

/-- What goes over each step of a sequence goes over the sequence. -/
theorem mapBoth_bind {x : Except ε α} {y : Except ε' γ} {k : α → Except ε β}
    {l : γ → Except ε' δ} (hx : y = mapBoth e f x) (hk : ∀ a, l (f a) = mapBoth e g (k a)) :
    (y >>= l) = mapBoth e g (x >>= k) := by
  subst hx
  cases x with
  | error err => rfl
  | ok a => exact hk a

theorem guard_mapBoth {η ζ : Type} {p q : Prop} {_ : Decidable p} {_ : Decidable q} {c : ε}
    {d : ε'} {k : η → Except ε α} {l : ζ → Except ε' γ} {x : Except ε α} {y : Except ε' γ}
    (hp : q ↔ p) (hc : d = e c) (hx : y = mapBoth e f x) :
    (if q then throw d >>= l else y) = mapBoth e f (if p then throw c >>= k else x) := by
  subst hc
  by_cases h : p
  · rw [if_pos h, if_pos (hp.mpr h)]
    rfl
  · rw [if_neg h, if_neg (hp.not.mpr h), hx]

theorem map_mapBoth {k : α → β} {l : γ → δ} (hk : ∀ a, l (f a) = g (k a)) (x : Except ε α) :
    (mapBoth e f x).map l = mapBoth e g (x.map k) := by
  cases x with
  | error err => rfl
  | ok a => exact congrArg Except.ok (hk a)

theorem mapM_mapBoth {k : α → Except ε β} {l : γ → Except ε' δ}
    (hk : ∀ a, l (f a) = mapBoth e g (k a)) (as : List α) :
    (as.map f).mapM l = mapBoth e (List.map g) (as.mapM k) := by
  induction as with
  | nil => rfl
  | cons a as ih =>
      rw [List.map_cons, List.mapM_cons, List.mapM_cons]
      exact mapBoth_bind (hk a) fun b => mapBoth_bind ih fun bs => rfl

/-- A fold goes over to a fold over what is kept, if what is not kept makes no difference. -/
theorem foldlM_filterMap {σ τ : Type} {h : σ → τ} {keep : α → Option γ}
    {step : σ → α → Except ε σ} {next : τ → γ → Except ε' τ}
    (hkeep : ∀ s a c, keep a = some c → next (h s) c = mapBoth e h (step s a))
    (hskip : ∀ s a, keep a = none → mapBoth e h (step s a) = .ok (h s)) (s : σ) (as : List α) :
    (as.filterMap keep).foldlM next (h s) = mapBoth e h (as.foldlM step s) := by
  induction as generalizing s with
  | nil => rfl
  | cons a as ih =>
      rw [List.foldlM_cons]
      cases hkept : keep a with
      | some c =>
          rw [List.filterMap_cons_some hkept, List.foldlM_cons]
          exact mapBoth_bind (hkeep s a c hkept) ih
      | none =>
          have hnext := hskip s a hkept
          rw [List.filterMap_cons_none hkept]
          cases hstep : step s a with
          | error err =>
              rw [hstep] at hnext
              cases hnext
          | ok t =>
              rw [hstep] at hnext
              rw [ok_bind, ← Except.ok.inj hnext]
              exact ih t

theorem foldlM_mapBoth {σ τ : Type} {h : σ → τ} {step : σ → α → Except ε σ}
    {next : τ → γ → Except ε' τ} (hstep : ∀ s a, next (h s) (f a) = mapBoth e h (step s a))
    (s : σ) (as : List α) :
    (as.map f).foldlM next (h s) = mapBoth e h (as.foldlM step s) := by
  rw [← List.filterMap_eq_map]
  refine foldlM_filterMap ?_ nofun s as
  rintro s a c ⟨⟩
  exact hstep s a

/-- Two results that look the same are both given or both refused. -/
theorem mapBoth_eq_cases {ε₁ ε₂ α₁ α₂ : Type} {e₁ : ε₁ → ε} {e₂ : ε₂ → ε} {f₁ : α₁ → α}
    {f₂ : α₂ → α} {x : Except ε₁ α₁} {y : Except ε₂ α₂} (h : mapBoth e₁ f₁ x = mapBoth e₂ f₂ y) :
    (∃ a b, x = .ok a ∧ y = .ok b ∧ f₁ a = f₂ b) ∨
      ∃ c d, x = .error c ∧ y = .error d ∧ e₁ c = e₂ d := by
  cases x with
  | error c =>
      cases y with
      | error d => exact .inr ⟨c, d, rfl, rfl, Except.error.inj h⟩
      | ok b => cases h
  | ok a =>
      cases y with
      | error d => cases h
      | ok b => exact .inl ⟨a, b, rfl, rfl, Except.ok.inj h⟩

end

end B33
