namespace GoldenRecord

variable {ε α β : Type}

instance decidableEqExcept [DecidableEq ε] [DecidableEq α] : DecidableEq (Except ε α)
  | .ok a, .ok b => decidable_of_iff (a = b) (by simp)
  | .error a, .error b => decidable_of_iff (a = b) (by simp)
  | .ok _, .error _ => .isFalse (by simp)
  | .error _, .ok _ => .isFalse (by simp)

theorem bind_ok_iff {x : Except ε α} {f : α → Except ε β} {b : β} :
    (x >>= f) = .ok b ↔ ∃ a, x = .ok a ∧ f a = .ok b := by
  cases x with
  | error e => simp [bind, Except.bind]
  | ok a => simp [bind, Except.bind]

theorem map_ok_iff {x : Except ε α} {f : α → β} {b : β} :
    x.map f = .ok b ↔ ∃ a, x = .ok a ∧ f a = b := by
  cases x with
  | error e => simp [Except.map]
  | ok a => simp [Except.map]

theorem andThen_ok_iff {x : Except ε Unit} {y : Except ε β} {b : β} :
    (x >>= fun _ => y) = .ok b ↔ x = .ok () ∧ y = .ok b := by
  cases x with
  | error e => simp [bind, Except.bind]
  | ok a => simp [bind, Except.bind]

@[simp] theorem pure_ok_iff {a b : α} : (pure a : Except ε α) = .ok b ↔ a = b := by
  simp [pure, Except.pure]

section Lists

variable {f : α → Except ε β} {a a' : α} {as before after : List α} {bs : List β}

theorem mapM_cons_ok_iff : (a :: as).mapM f = .ok bs ↔
    ∃ b rest, f a = .ok b ∧ as.mapM f = .ok rest ∧ b :: rest = bs := by
  rw [List.mapM_cons]
  simp only [bind_ok_iff, pure_ok_iff, exists_and_left]

theorem exists_of_mapM_ok (h : as.mapM f = .ok bs) : ∀ a ∈ as, ∃ b, f a = .ok b := by
  induction as generalizing bs with
  | nil => exact fun a ha => absurd ha List.not_mem_nil
  | cons a as ih =>
    obtain ⟨b, rest, hb, hrest, -⟩ := mapM_cons_ok_iff.mp h
    exact List.forall_mem_cons.mpr ⟨⟨b, hb⟩, ih hrest⟩

theorem mem_of_mapM_ok (h : as.mapM f = .ok bs) : ∀ b ∈ bs, ∃ a ∈ as, f a = .ok b := by
  induction as generalizing bs with
  | nil =>
    cases h
    exact fun b hb => absurd hb List.not_mem_nil
  | cons a as ih =>
    obtain ⟨b, rest, hb, hrest, rfl⟩ := mapM_cons_ok_iff.mp h
    refine List.forall_mem_cons.mpr ⟨⟨a, List.mem_cons_self, hb⟩, fun c hc => ?_⟩
    obtain ⟨d, hd, hvalue⟩ := ih hrest c hc
    exact ⟨d, List.mem_cons_of_mem a hd, hvalue⟩

theorem mapM_map_ok {g : β → α} (h : ∀ b ∈ bs, f (g b) = .ok b) : (bs.map g).mapM f = .ok bs := by
  induction bs with
  | nil => rfl
  | cons b bs ih =>
    rw [List.map_cons]
    exact mapM_cons_ok_iff.mpr ⟨b, bs, h b List.mem_cons_self,
      ih fun c hc => h c (List.mem_cons_of_mem b hc), rfl⟩

theorem mapM_middle_iff : (before ++ a :: after).mapM f = .ok bs ↔ ∃ firsts b lasts,
    before.mapM f = .ok firsts ∧ f a = .ok b ∧ after.mapM f = .ok lasts ∧
      firsts ++ b :: lasts = bs := by
  rw [List.mapM_append]
  constructor
  · intro h
    obtain ⟨firsts, hfirsts, h⟩ := bind_ok_iff.mp h
    obtain ⟨rest, hrest, h⟩ := bind_ok_iff.mp h
    obtain ⟨b, lasts, hb, hlasts, rfl⟩ := mapM_cons_ok_iff.mp hrest
    cases h
    exact ⟨firsts, b, lasts, hfirsts, hb, hlasts, rfl⟩
  · rintro ⟨firsts, b, lasts, hfirsts, hb, hlasts, rfl⟩
    rw [hfirsts, List.mapM_cons, hb, hlasts]
    rfl

theorem mapM_error {e : ε} (h : ∀ b, f a = .ok b → f a' = .error e)
    (hall : (before ++ a :: after).mapM f = .ok bs) :
    (before ++ a' :: after).mapM f = .error e := by
  obtain ⟨firsts, b, -, hfirsts, hb, -⟩ := mapM_middle_iff.mp hall
  rw [List.mapM_append, List.mapM_cons, hfirsts, h b hb]
  rfl

end Lists

/-- A step that keeps a state hands its answer and the new state to the next one. -/
theorem bind_of_answer {σ : Type} {x : StateM σ α} {f : α → StateM σ β} {s s' : σ} {a : α}
    (h : x s = (a, s')) : (x >>= f) s = f a s' := by
  change f (x s).1 (x s).2 = f a s'
  rw [h]

end GoldenRecord
