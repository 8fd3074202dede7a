import CtRecomp.OverlayFresh

namespace CtRecomp

/-! What runs natively is what was compiled. -/

structure OvlInv (table : List OverlayFunc) (m : OvlMachine) : Prop where
  watching : m.ovl.Watching table
  nested : Nested m.stack m.ovl.act.length
  awake : ∀ n, .overlay n ∈ m.stack → ∃ a, m.ovl.act[n]? = some a ∧ a.dormant = false

/-- Once the hit is looked into, what will still run natively is intact. -/
def OvlMachine.Intact (m : OvlMachine) : Prop :=
  m.ovl.hit = false → ∀ n a, m.ovl.act[n]? = some a → a.dormant = false →
    ¬Dropped m.stack n → a.f.intact m.ovl.wram = true

section

variable {table : List OverlayFunc} {strict : Bool} {timely : Prop} {o o' : Overlays}
  {m m' : OvlMachine}

/-- A boundary's check. -/
theorem tick_checked (h : o.Watching table) {n : Option Nat} (ht : o.tick = (n, o')) :
    Rechecked table { o with journal := [], hit := false } o' ∧
      (∀ k, n = some k → k < o.act.length) ∧
      (o.Timely → o.hit = true → ∀ j a, o.act[j]? = some a → a.dormant = false →
        (∀ k, n = some k → j < k) → a.f.intact o.wram = true) := by
  unfold Overlays.tick at ht
  cases hhit : o.hit with
  | false =>
    rw [hhit, if_neg Bool.false_ne_true] at ht
    cases ht
    exact ⟨.refl, nofun, nofun⟩
  | true =>
    rw [hhit, if_pos rfl] at ht
    obtain ⟨hre, hbound, hintact⟩ := firstStale_rechecked
      (s := { o with journal := [], hit := false }) h.placed rfl 0
    change ({ o with journal := [], hit := false } : Overlays).firstStale o.act 0 = (n, o') at ht
    rw [ht] at hre hbound hintact
    refine ⟨hre, fun k hk => ?_, fun htimely _ j a hja hawake hbefore => ?_⟩
    · have := hbound k hk
      omega
    · have hsame : Rechecked table { o with journal := [], hit := false }
          { o with journal := [], hit := false } := .refl
      refine hintact (h.boundary false hsame).kept (htimely hhit) j a hja hawake fun k hk => ?_
      have := hbefore k hk
      omega

theorem Rechecked.hit {s s' : Overlays} (h : Rechecked table s s') : s'.hit = s.hit := by
  rw [h.same]

theorem lookup_checked (h : o.Watching table) {c : Cpu} {found : Option (OverlayFunc × Nat)}
    (hl : ({ o with journal := [] } : Overlays).lookup table c = (found, o')) :
    Rechecked table { o with journal := [] } o' ∧ o'.Watching table ∧
      ∀ e, found = some e → table[e.2]? = some e.1 ∧
        ((∀ e ∈ overlayCandidates table c, o.Fresh e.1 e.2) → e.1.intact o.wram = true) := by
  have hindex : ∀ e ∈ overlayCandidates table c, table[e.2]? = some e.1 := mem_candidates
  obtain ⟨hre, hfound⟩ := firstValid_rechecked (s := { o with journal := [] }) hindex rfl
  change ({ o with journal := [] } : Overlays).firstValid _ = _ at hl
  rw [hl] at hre hfound
  have hwatching : ({ o with journal := [] } : Overlays).Watching table :=
    h.boundary o.hit .refl
  refine ⟨hre, hwatching.boundary o.hit ?_, fun e he => ?_⟩
  · exact hre
  · obtain ⟨hmem, hintact⟩ := hfound e he
    exact ⟨mem_candidates e hmem, hintact hwatching.kept⟩

theorem leave_act {n : Nat} (hn : n < o.act.length) : (o.leave n).act = o.act.take n := by
  unfold Overlays.leave
  rw [List.getElem?_eq_getElem hn]

theorem leave_kept (n : Nat) : (o.leave n).hit = o.hit ∧ (o.leave n).wram = o.wram := by
  unfold Overlays.leave
  split <;> exact ⟨rfl, rfl⟩

theorem goDormant_length : o.goDormant.act.length = o.act.length := by
  rcases goDormant_cases o with hsame | ⟨act, a, hact, -, hsleep⟩
  · rw [hsame]
  · rw [hsleep, hact]
    simp

/-- An entry that is awake after `go_dormant` was before, and is not the last. -/
theorem goDormant_awake {n : Nat} {a : OverlayAct} (h : o.goDormant.act[n]? = some a)
    (hawake : a.dormant = false) : o.act[n]? = some a := by
  rcases goDormant_cases o with hsame | ⟨act, b, hact, -, hsleep⟩
  · rw [hsame] at h
    exact h
  · rw [hsleep] at h
    rcases getElem?_concat h with ⟨hn, h⟩ | ⟨-, rfl⟩
    · rw [hact, List.getElem?_append_left hn, h]
    · cases hawake

theorem goDormant_before {n : Nat} (hn : n + 1 < o.act.length) : o.goDormant.act[n]? = o.act[n]? := by
  rcases goDormant_cases o with hsame | ⟨act, b, hact, -, hsleep⟩
  · rw [hsame]
  · have hlen : n < act.length := by
      rw [hact, List.length_append, List.length_singleton] at hn
      omega
    rw [hsleep, hact, List.getElem?_append_left hlen, List.getElem?_append_left hlen]

theorem enter_act {f : OverlayFunc} {k : Nat} {s0 : BitVec 16} (he : o.enter f k s0 = some o') :
    o'.act = o.act ++ [⟨f, k, s0, false, o.watch⟩] ∧ o'.hit = o.hit ∧ o'.wram = o.wram := by
  unfold Overlays.enter at he
  split at he
  next => cases he
  next =>
    cases he
    exact ⟨rfl, rfl, rfl⟩

/-- Frames that hold no overlay function leave the awake ones be. -/
theorem OvlInv.frame (h : OvlInv table m) {fr : OvlFrame} (hfr : ∀ n, fr ≠ .overlay n)
    (hn : Nested (fr :: m.stack) m.ovl.act.length) : OvlInv table ⟨m.ovl, fr :: m.stack⟩ where
  watching := h.watching
  nested := hn
  awake n hmem := by
    rcases List.mem_cons.mp hmem with heq | hmem
    · exact absurd heq.symm (hfr n)
    · exact h.awake n hmem

theorem OvlInv.ovl (h : OvlInv table m) (hw : o.Watching table) (hact : o.act = m.ovl.act) :
    OvlInv table ⟨o, m.stack⟩ := by
  refine ⟨hw, ?_, ?_⟩
  · change Nested m.stack o.act.length
    rw [hact]
    exact h.nested
  · change ∀ n, .overlay n ∈ m.stack → ∃ a, o.act[n]? = some a ∧ a.dormant = false
    rw [hact]
    exact h.awake

/-- Entry `n` left, and the frames down to its own. -/
theorem OvlInv.left (h : OvlInv table m) {n : Nat} (hn : n < m.ovl.act.length)
    {stack : List OvlFrame} (hnested : Nested stack n) (hsub : ∀ fr ∈ stack, fr ∈ m.stack) :
    OvlInv table ⟨m.ovl.leave n, stack⟩ := by
  have hact := leave_act hn
  refine ⟨h.watching.leave n, ?_, fun k hk => ?_⟩
  · change Nested stack (m.ovl.leave n).act.length
    rw [hact, List.length_take, Nat.min_eq_left (Nat.le_of_lt hn)]
    exact hnested
  · obtain ⟨a, ha, hawake⟩ := h.awake k (hsub _ hk)
    refine ⟨a, ?_, hawake⟩
    change (m.ovl.leave n).act[k]? = some a
    rw [hact, List.getElem?_take_of_lt (hnested.overlay_lt hk)]
    exact ha

theorem OvlInv.start (wram : BitVec 17 → BitVec 8) (stores : BitVec 9 → Nat) :
    OvlInv table (.start wram stores) where
  watching := Watching.start wram stores
  nested := .exec .nil
  awake n hn := by simp [OvlMachine.start] at hn

theorem OvlInv.step (h : OvlInv table m) (hs : OvlStep table strict timely m m') :
    OvlInv table m' := by
  cases hs with
  | store _ off v journaled => exact h.ovl (h.watching.store off v journaled) rfl
  | edge _ undoFrom => exact h.ovl (h.watching.edge undoFrom) rfl
  | begins native fresh ht =>
    obtain ⟨hre, -, -⟩ := tick_checked h.watching ht
    exact h.ovl (h.watching.boundary false hre) hre.act
  | @bails o o' fr outer n native fresh ht =>
    obtain ⟨hre, hbound, -⟩ := tick_checked h.watching ht
    have hinv : OvlInv table ⟨o', fr :: outer⟩ := h.ovl (h.watching.boundary false hre) hre.act
    have hact : o'.act = o.act := hre.act
    have hnested : Nested (fr :: outer) o.act.length := h.nested
    refine hinv.frame (fun _ => by simp) ?_
    change Nested _ o'.act.length
    rw [hact]
    exact .bail hnested (hbound n rfl)
  | @longjmp o n active outer =>
    have hnested : Nested (.bail n active :: outer) o.act.length := h.nested
    have hlt := hnested.bailing_le rfl
    have houter : Nested outer o.act.length := by cases hnested with | bail hn _ => exact hn
    refine h.left (by omega : n < o.act.length) (houter.unwind (by omega)) fun fr hfr => ?_
    exact List.mem_cons_of_mem _ (mem_unwind hfr)
  | interpret c loops fresh hl =>
    obtain ⟨hre, hwatching, -⟩ := lookup_checked h.watching hl
    exact h.ovl hwatching hre.act
  | dispatchRom => exact h.frame (fun _ => by simp) (.rom h.nested)
  | @dispatch o o' entered fr outer f k c loops fresh hl he =>
    obtain ⟨hre, hwatching, hfound⟩ := lookup_checked h.watching hl
    obtain ⟨hact, -, -⟩ := enter_act he
    have hold : o'.act = o.act := hre.act
    refine ⟨hwatching.enter (hfound _ rfl).1 hre.journal he, ?_, fun n hn => ?_⟩
    · change Nested (.overlay o'.act.length :: fr :: outer) entered.act.length
      rw [hact, List.length_append, List.length_singleton]
      refine .overlay ?_
      rw [hold]
      exact h.nested
    · change ∃ a, entered.act[n]? = some a ∧ a.dormant = false
      rw [hact]
      rcases List.mem_cons.mp hn with heq | hn
      · cases heq
        exact ⟨_, List.getElem?_concat_length .., rfl⟩
      · obtain ⟨a, ha, hawake⟩ := h.awake n hn
        have ha' : o'.act[n]? = some a := by
          rw [hold]
          exact ha
        refine ⟨a, ?_, hawake⟩
        rw [List.getElem?_append_left (List.getElem?_eq_some_iff.mp ha').1]
        exact ha'
  | call => exact h.frame (fun _ => by simp) (.rom h.nested)
  | hook => exact h.frame (fun _ => by simp) (.exec h.nested)
  | @rest o n outer =>
    have hnested : Nested (.overlay n :: outer) o.act.length := h.nested
    obtain ⟨hlen, houter⟩ : o.act.length = n + 1 ∧ Nested outer n := by
      generalize o.act.length = len at hnested
      cases hnested with | overlay hn => exact ⟨rfl, hn⟩
    refine ⟨h.watching.goDormant, ?_, fun k hk => ?_⟩
    · change Nested _ o.goDormant.act.length
      rw [goDormant_length, hlen]
      exact .spent houter
    · have hk' : .overlay k ∈ outer := by simpa using hk
      have hlt := houter.overlay_lt hk'
      obtain ⟨a, ha, hawake⟩ := h.awake k (List.mem_cons_of_mem _ hk')
      refine ⟨a, ?_, hawake⟩
      change o.goDormant.act[k]? = some a
      rw [goDormant_before (by omega)]
      exact ha
  | @ret o fr outer hfr =>
    refine ⟨h.watching, ?_, fun n hn => h.awake n (List.mem_cons_of_mem _ hn)⟩
    have hnested : Nested (fr :: outer) o.act.length := h.nested
    rcases hfr with rfl | rfl
    · cases hnested with | rom hn => exact hn
    · cases hnested with | exec hn => exact hn
  | @leave o n fr outer hfr =>
    have hnested : Nested (fr :: outer) o.act.length := h.nested
    have houter : Nested outer n ∧ n < o.act.length := by
      rcases hfr with rfl | rfl
      · generalize o.act.length = len at hnested
        cases hnested with | overlay hn => exact ⟨hn, Nat.lt_succ_self _⟩
      · generalize o.act.length = len at hnested
        cases hnested with | spent hn => exact ⟨hn, Nat.lt_succ_self _⟩
    exact h.left houter.2 houter.1 fun fr hfr => List.mem_cons_of_mem _ hfr
  | reset => exact ⟨h.watching.reset, .exec .nil, fun n hn => by simp at hn⟩

theorem tick_some {n : Nat} (ht : o.tick = (some n, o')) : o.hit = true := by
  unfold Overlays.tick at ht
  split at ht
  next hhit => exact hhit
  next => cases ht

/-- The same memory and entries, the bail-out under way no other. -/
theorem OvlMachine.Intact.same (h : m.Intact) {stack : List OvlFrame} (hhit : o.hit = m.ovl.hit)
    (hwram : o.wram = m.ovl.wram) (hact : o.act = m.ovl.act)
    (hb : bailing stack = bailing m.stack) : OvlMachine.Intact ⟨o, stack⟩ := by
  intro hclear n a ha hawake hlive
  change a.f.intact o.wram = true
  have ha' : m.ovl.act[n]? = some a := hact ▸ ha
  rw [hwram]
  refine h (hhit ▸ hclear) n a ha' hawake ?_
  unfold Dropped
  rw [← hb]
  exact hlive

/-- Fewer entries: those left were there. -/
theorem OvlMachine.Intact.left (h : m.Intact) {n : Nat} {stack : List OvlFrame} (hn : n < m.ovl.act.length)
    (hlive : ∀ k, k < n → ¬Dropped stack k → ¬Dropped m.stack k) :
    OvlMachine.Intact ⟨m.ovl.leave n, stack⟩ := by
  intro hclear k a ha hawake hk
  obtain ⟨hhit, hwram⟩ := leave_kept (o := m.ovl) n
  change (m.ovl.leave n).act[k]? = some a at ha
  rw [leave_act hn] at ha
  have hkn : k < n := by
    have hlt := (List.getElem?_eq_some_iff.mp ha).1
    rw [List.length_take] at hlt
    omega
  rw [List.getElem?_take_of_lt hkn] at ha
  change a.f.intact (m.ovl.leave n).wram = true
  rw [hwram]
  exact h (hhit ▸ hclear) k a ha hawake (hlive k hkn hk)

theorem OvlMachine.Intact.step (hi : m.Intact) (h : OvlInv table m)
    (hs : OvlStep table strict True m m') : m'.Intact := by
  cases hs with
  | store _ off v journaled =>
    intro hclear n a ha hawake hlive
    obtain ⟨hhit, hmissed⟩ := h.watching.missed hclear
    change a.f.intact (m.ovl.store off v journaled).wram = true
    rw [store_intact (hmissed a (List.mem_of_getElem? ha) hawake)]
    exact hi hhit n a ha hawake hlive
  | edge _ undoFrom =>
    intro hclear n a ha hawake hlive
    change a.f.intact (m.ovl.edge undoFrom).wram = true
    rw [edge_intact undoFrom fun e he => h.watching.journal hclear e he a (List.mem_of_getElem? ha) hawake]
    exact hi hclear n a ha hawake hlive
  | @begins o o' fr outer native fresh ht =>
    obtain ⟨hre, -, hchecked⟩ := tick_checked h.watching ht
    intro _ n a ha hawake hlive
    have ha' : o.act[n]? = some a := hre.act ▸ ha
    have hwram : o'.wram = o.wram := hre.wram
    change a.f.intact o'.wram = true
    rw [hwram]
    cases hhit : o.hit with
    | true => exact hchecked (fresh trivial) hhit n a ha' hawake nofun
    | false => exact hi hhit n a ha' hawake hlive
  | @bails o o' fr outer k native fresh ht =>
    obtain ⟨hre, -, hchecked⟩ := tick_checked h.watching ht
    intro _ n a ha hawake hlive
    have ha' : o.act[n]? = some a := hre.act ▸ ha
    have hwram : o'.wram = o.wram := hre.wram
    change a.f.intact o'.wram = true
    rw [hwram]
    refine hchecked (fresh trivial) (tick_some ht) n a ha' hawake fun k' hk' => ?_
    cases hk'
    refine Nat.lt_of_not_le fun hle => hlive ⟨k, o.act.length, rfl, hle, ?_⟩
    exact (List.getElem?_eq_some_iff.mp ha').1
  | @longjmp o n active outer =>
    have hnested : Nested (.bail n active :: outer) o.act.length := h.nested
    have hlt := hnested.bailing_le rfl
    refine hi.left (by omega : n < o.act.length) fun k hk _ hdropped => ?_
    obtain ⟨n', active', hb, hle, -⟩ := hdropped
    cases hb
    exact absurd hk (Nat.not_lt.mpr hle)
  | interpret c loops fresh hl =>
    obtain ⟨hre, -, -⟩ := lookup_checked h.watching hl
    exact hi.same hre.hit hre.wram hre.act rfl
  | dispatchRom => exact hi.same rfl rfl rfl rfl
  | @dispatch o o' entered fr outer f k c loops fresh hl he =>
    obtain ⟨hre, -, hfound⟩ := lookup_checked h.watching hl
    obtain ⟨hact, hhit, hwram⟩ := enter_act he
    have hmem : entered.wram = o.wram := hwram.trans hre.wram
    intro hclear n a ha hawake hlive
    change a.f.intact entered.wram = true
    rw [hmem]
    have ha' : (o'.act ++ [(⟨f, k, c.S, false, o'.watch⟩ : OverlayAct)])[n]? = some a := hact ▸ ha
    rcases getElem?_concat ha' with ⟨-, hold⟩ | ⟨-, rfl⟩
    · have hclear' : o.hit = false := (hhit.trans hre.hit) ▸ hclear
      have hold' : o.act[n]? = some a := by
        have heq : o'.act = o.act := hre.act
        rw [← heq]
        exact hold
      exact hi hclear' n a hold' hawake hlive
    · exact (hfound _ rfl).2 (fresh trivial)
  | call => exact hi.same rfl rfl rfl rfl
  | hook => exact hi.same rfl rfl rfl rfl
  | @rest o n outer =>
    intro hclear k a ha hawake hlive
    have hkept : o.goDormant.hit = o.hit ∧ o.goDormant.wram = o.wram := by
      rcases goDormant_cases o with hsame | ⟨act, b, -, -, hsleep⟩
      · rw [hsame]
        exact ⟨rfl, rfl⟩
      · rw [hsleep]
        exact ⟨rfl, rfl⟩
    change a.f.intact o.goDormant.wram = true
    rw [hkept.2]
    exact hi (hkept.1 ▸ hclear) k a (goDormant_awake ha hawake) hawake hlive
  | @ret o fr outer hfr =>
    rcases hfr with rfl | rfl
    · exact hi.same rfl rfl rfl rfl
    · exact hi.same rfl rfl rfl rfl
  | @leave o n fr outer hfr =>
    have hnested : Nested (fr :: outer) o.act.length := h.nested
    rcases hfr with rfl | rfl
    · refine hi.left (hnested.overlay_lt List.mem_cons_self) fun _ _ hlive => hlive
    · have hlt : n < o.act.length := by
        generalize o.act.length = len at hnested
        cases hnested with | spent hn => exact Nat.lt_succ_self _
      exact hi.left hlt fun _ _ hlive => hlive
  | reset => exact fun _ n a ha => by cases ha

theorem ovlRun_inv (h : OvlRun table strict timely m) : OvlInv table m := by
  induction h with
  | start wram stores => exact .start wram stores
  | step _ hs ih => exact ih.step hs

theorem ovlRun_intact (h : OvlRun table strict True m) : m.Intact := by
  induction h with
  | start => exact fun _ n a ha => by cases ha
  | step run hs ih => exact ih.step (ovlRun_inv run) hs

theorem bailing_mem {stack : List OvlFrame} {n active : Nat}
    (h : bailing stack = some (n, active)) : .bail n active ∈ stack := by
  induction stack with
  | nil => cases h
  | cons fr outer ih =>
    cases fr with
    | bail k k' =>
      cases h
      exact List.mem_cons_self
    | exec => exact List.mem_cons_of_mem _ (ih h)
    | rom => exact List.mem_cons_of_mem _ (ih h)
    | overlay k => exact List.mem_cons_of_mem _ (ih h)
    | spent k => exact List.mem_cons_of_mem _ (ih h)

/-- Strict mode fails instead. -/
theorem strict_never_bails (h : OvlRun table true timely m) (n active : Nat) :
    .bail n active ∉ m.stack := by
  induction h with
  | start => simp [OvlMachine.start]
  | step _ hs ih =>
    cases hs with
    | store => exact ih
    | edge => exact ih
    | begins => exact ih
    | bails _ _ _ hstrict => cases hstrict
    | longjmp => exact fun hmem => ih (List.mem_cons_of_mem _ (mem_unwind hmem))
    | interpret => exact ih
    | dispatchRom => simpa using ih
    | dispatch => simpa using ih
    | call => simpa using ih
    | hook => simpa using ih
    | rest => simpa using ih
    | ret => exact fun hmem => ih (List.mem_cons_of_mem _ hmem)
    | leave => exact fun hmem => ih (List.mem_cons_of_mem _ hmem)
    | reset => simp

/-- The watched range covers whatever runs natively and is not dormant. Where `tick` begins
an instruction, the bytes of all of them are those they were compiled from, but for what a
bail-out is dropping; the function the instruction is of is not among these, and in
strict mode there are none. -/
theorem overlay_fresh :
    (∀ timely m, OvlRun table strict timely m → ∀ a ∈ m.ovl.act, a.dormant = false →
      m.ovl.watch.Covers a.f) ∧
    ∀ o o' fr outer, OvlRun table strict True ⟨o, fr :: outer⟩ → fr.Native → o.Timely →
      o.tick = (none, o') →
      (∀ n a, o'.act[n]? = some a → a.dormant = false → ¬Dropped (fr :: outer) n →
        a.f.intact o'.wram = true) ∧
      (∀ n, fr = .overlay n → ¬Dropped (fr :: outer) n ∧
        ∃ a, o'.act[n]? = some a ∧ a.dormant = false) ∧
      (strict = true → ∀ n, ¬Dropped (fr :: outer) n) := by
  refine ⟨fun _ _ h => (ovlRun_inv h).watching.covers, fun o o' fr outer h native fresh ht => ?_⟩
  have hstep : OvlStep table strict True ⟨o, fr :: outer⟩ ⟨o', fr :: outer⟩ :=
    .begins native (fun _ => fresh) ht
  have hinv := ovlRun_inv (h.step hstep)
  have hclear : o'.hit = false := (tick_checked (ovlRun_inv h).watching ht).1.hit
  refine ⟨ovlRun_intact (h.step hstep) hclear, fun n hn => ⟨?_, ?_⟩, fun hstrict n hdropped => ?_⟩
  · rintro ⟨k, active, hb, -, hlt⟩
    have hnested : Nested (fr :: outer) o'.act.length := hinv.nested
    rw [hn] at hnested hb
    generalize o'.act.length = len at hnested
    cases hnested with | overlay houter =>
      have := houter.bailing_le hb
      omega
  · exact hinv.awake n (by rw [hn]; exact List.mem_cons_self)
  · obtain ⟨k, active, hb, -, -⟩ := hdropped
    subst hstrict
    exact strict_never_bails h k active (bailing_mem hb)

end

/-! One function of one byte, a zero at $7E2000. -/

def overlayByte : OverlayFunc where
  addr := 0x7E2000
  m := false
  x := false
  lo := 0x7E2000
  hi := 0x7E2000
  hash := fnv [0]
  ordered := Nat.le_refl _
  placed := by decide

def overlayCpu : Cpu :=
  ⟨⟨0, 0, 0, 0x1FF, 0, 0, false, false, false, false, false, false, false, false, false⟩, 0x7E, 0x2000⟩

/-- Dispatched, then written to. -/
def overlayWritten (v : BitVec 8) : Overlays :=
  let s := (OvlMachine.start (fun _ => 0) fun _ => 0).ovl
  let s := (s.lookup [overlayByte] overlayCpu).2
  let s := (s.enter overlayByte 0 overlayCpu.S).getD s
  s.store 0x2000 v false

theorem overlayWritten_run (strict : Bool) (v : BitVec 8) :
    OvlRun [overlayByte] strict True ⟨overlayWritten v, [.overlay 0, .exec]⟩ := by
  have hstart := @OvlRun.start [overlayByte] strict True (fun _ => 0) fun _ => 0
  have hdispatched := hstart.step (.dispatch (f := overlayByte) (k := 0) overlayCpu trivial
    (fun _ _ _ _ hc => by cases hc) rfl rfl)
  exact hdispatched.step (.store _ 0x2000 v false)

theorem overlayWritten_timely (v : BitVec 8) : (overlayWritten v).Timely := by
  intro _ a ha _ c hc
  cases List.mem_singleton.mp ha
  cases hc
  change (overlayByte.pages.map (overlayWritten v).stores).sum <
    (overlayByte.pages.map fun _ => 0).sum + 2 ^ 32
  have hstores : (overlayWritten v).stores = (overlayWritten 0).stores := rfl
  rw [hstores]
  decide

theorem tick_of_fst {o : Overlays} {n : Option Nat} (h : o.tick.1 = n) :
    o.tick = (n, o.tick.2) := Prod.ext h rfl

/-- A zero written over it: the hit is looked into, and the function goes on. -/
theorem overlay_fresh_same : overlayByte.intact (overlayWritten 0).tick.2.wram = true := by
  have hnext := (overlay_fresh.2 _ _ _ _ (overlayWritten_run true 0) trivial
    (overlayWritten_timely 0) (tick_of_fst (by decide +kernel))).1
  obtain ⟨a, ha, hf, hawake⟩ : ∃ a, (overlayWritten 0).tick.2.act[0]? = some a ∧
      a.f = overlayByte ∧ a.dormant = false := ⟨_, rfl, rfl, rfl⟩
  rw [← hf]
  refine hnext 0 a ha hawake ?_
  rintro ⟨n, active, hb, -⟩
  cases hb

/-- Its rest interpreted after a bail-out, compiled code of ROM runs while the
overwritten function is still active. -/
theorem overlay_stale_active_runs : ¬∀ (table : List OverlayFunc) (strict : Bool)
    (o o' : Overlays) (fr : OvlFrame) (outer : List OvlFrame),
    OvlRun table strict True ⟨o, fr :: outer⟩ → fr.Native → o.Timely → o.tick = (none, o') →
      ∀ a ∈ o'.act, a.dormant = false → a.f.intact o'.wram = true := by
  intro hall
  have hbailed := (overlayWritten_run false 1).step
    (.bails trivial (fun _ => overlayWritten_timely 1)
      (tick_of_fst (n := some 0) (by decide +kernel)) rfl)
  have hrom := hbailed.step (.dispatchRom trivial)
  generalize ho : (overlayWritten 1).tick.2 = o at hrom
  have hclear : o.hit = false := by
    rw [← ho]
    decide +kernel
  have htick : o.tick = (none, { o with journal := [] }) := by
    unfold Overlays.tick
    rw [hclear, if_neg Bool.false_ne_true]
  obtain ⟨a, ha, hawake, hstale⟩ : ∃ a ∈ o.act, a.dormant = false ∧
      a.f.intact o.wram = false := by
    rw [← ho]
    exact ⟨_, List.mem_cons_self, rfl, by decide +kernel⟩
  have hintact := hall _ _ _ _ _ _ hrom trivial (fun hhit => ?_) htick a ha hawake
  · exact Bool.noConfusion (hstale.symm.trans hintact)
  · rw [hclear] at hhit
    cases hhit

end CtRecomp
