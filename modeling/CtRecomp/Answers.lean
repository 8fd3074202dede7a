import CtRecomp.Fuel

namespace CtRecomp

/-! Code that does not run out, in whatever state it starts, given enough fuel. -/

section

variable {E S α β : Type} {out : E}

/-- Fuel changes nothing but whether there is enough, and some is enough. -/
structure Answers (out : E) (m : Nat → RaiseM E S α) : Prop where
  grows : ∀ {n n'}, n ≤ n' → Below out (m n) (m n')
  enough : ∀ s, ∃ n, (m n s).1 ≠ .error out

variable {m : Nat → RaiseM E S α}

theorem Answers.from (h : Answers out m) {n n' : Nat} (hn : n ≤ n') {s : S}
    (hs : (m n s).1 ≠ .error out) : m n' s = m n s := (h.grows hn).enough hs

/-- What it answers. -/
theorem Answers.result (h : Answers out m) (s : S) :
    ∃ N p, p.1 ≠ .error out ∧ ∀ n ≥ N, m n s = p := by
  obtain ⟨N, hN⟩ := h.enough s
  exact ⟨N, m N s, hN, fun n hn => h.from hn hN⟩

theorem Answers.same (h : Answers out m) {n n' : Nat} {s : S} (hn : (m n s).1 ≠ .error out)
    (hn' : (m n' s).1 ≠ .error out) : m n s = m n' s := by
  rcases Nat.le_total n n' with hle | hle
  · exact (h.from hle hn).symm
  · exact h.from hle hn'

theorem answers_const {m : RaiseM E S α} (h : ∀ s, (m s).1 ≠ .error out) :
    Answers out fun _ => m where
  grows _ := .refl m
  enough s := ⟨0, h s⟩

theorem answers_pure (a : α) : Answers out fun _ => (pure a : RaiseM E S α) :=
  answers_const fun _ => nofun

theorem answers_throw {e : E} (he : e ≠ out) : Answers out fun _ => (throw e : RaiseM E S α) :=
  answers_const fun _ h => he (Except.error.inj h)

/-- Goes on with the values `m` can have. -/
theorem Answers.bindOf {Q : α → Prop} {f : Nat → α → RaiseM E S β} (h : Answers out m)
    (hQ : ∀ n, Returns (m n) Q) (hgrows : ∀ a {n n'}, n ≤ n' → Below out (f n a) (f n' a))
    (hf : ∀ a, Q a → ∀ s, ∃ n, (f n a s).1 ≠ .error out) :
    Answers out fun n => m n >>= f n where
  grows hn := (h.grows hn).bind fun a => hgrows a hn
  enough s := by
    obtain ⟨N, ⟨r, s'⟩, hr, hN⟩ := h.result s
    cases r with
    | error e =>
      refine ⟨N, ?_⟩
      rw [bind_run, hN N (Nat.le_refl N)]
      exact fun he => hr (congrArg Except.error (Except.error.inj he))
    | ok a =>
      obtain ⟨N', hN'⟩ := hf a ((hQ N).ok trivial (hN N (Nat.le_refl N))) s'
      refine ⟨max N N', ?_⟩
      rw [bind_run, hN _ (Nat.le_max_left N N')]
      dsimp only
      rw [(hgrows a (Nat.le_max_right N N')).enough hN']
      exact hN'

theorem Answers.bind {f : Nat → α → RaiseM E S β} (h : Answers out m)
    (hf : ∀ a, Answers out fun n => f n a) : Answers out fun n => m n >>= f n :=
  h.bindOf (fun n => returns_any (m n)) (fun a _ _ hn => (hf a).grows hn)
    fun a _ s => (hf a).enough s

theorem Answers.map (f : α → β) (h : Answers out m) : Answers out fun n => f <$> m n := by
  simp only [map_eq_pure_bind]
  exact h.bind fun a => answers_pure (f a)

/-- A handler that raises `out` again. -/
theorem Answers.tryCatch {handler : Nat → E → RaiseM E S α} (h : Answers out m)
    (hout : ∀ n s, (handler n out s).1 = .error out)
    (hh : ∀ e, e ≠ out → Answers out fun n => handler n e) :
    Answers out fun n => tryCatch (m n) (handler n) where
  grows hn := by
    refine (h.grows hn).tryCatch (hout _) fun e => ?_
    by_cases he : e = out
    · subst he
      exact fun s => .inl (hout _ s)
    · exact (hh e he).grows hn
  enough s := by
    obtain ⟨N, ⟨r, s'⟩, hr, hN⟩ := h.result s
    cases r with
    | ok a =>
      refine ⟨N, ?_⟩
      rw [tryCatch_run, hN N (Nat.le_refl N)]
      exact nofun
    | error e =>
      have he := hh e fun heq => hr (congrArg Except.error heq)
      obtain ⟨N', hN'⟩ := he.enough s'
      refine ⟨max N N', ?_⟩
      rw [tryCatch_run, hN _ (Nat.le_max_left N N')]
      dsimp only
      rw [he.from (Nat.le_max_right N N') hN']
      exact hN'

end

end CtRecomp
