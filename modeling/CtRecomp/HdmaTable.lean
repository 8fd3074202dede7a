import CtRecomp.DmaRun

namespace CtRecomp

/-! HDMA plays its table: line by line, a channel sends what the table's entries say. -/

/-- An entry: a row sent on the first of `count` lines, or a row for each of its lines. -/
inductive HdmaEntry
  | once (count : BitVec 8) (row : List (BitVec 8))
  | every (rows : List (List (BitVec 8)))
deriving DecidableEq

namespace HdmaEntry

def count : HdmaEntry → BitVec 8
  | once n _ => n
  | every rows => 0x80 + BitVec.ofNat 8 rows.length

def data : HdmaEntry → List (BitVec 8)
  | once _ row => row
  | every rows => rows.flatten

/-- What it sends, line by line. -/
def lines : HdmaEntry → List (Option (List (BitVec 8)))
  | once n row => some row :: List.replicate (n.toNat - 1) none
  | every rows => rows.map some

/-- It fits the line counter, and transfers of `len` bytes. -/
def Valid (len : Nat) : HdmaEntry → Prop
  | once n row => n ≠ 0 ∧ n ≤ 0x80 ∧ row.length = len
  | every rows => rows ≠ [] ∧ rows.length ≤ 127 ∧ ∀ row ∈ rows, row.length = len

theorem Valid.count_ne {len : Nat} {e : HdmaEntry} (h : e.Valid len) : e.count ≠ 0 := by
  have hevery : ∀ n ≤ 127, 0x80 + BitVec.ofNat 8 n ≠ 0 := by decide
  cases e with
  | once n row => exact h.1
  | every rows => exact hevery _ h.2.1

end HdmaEntry

/-- Within an entry: the line counter, whether the next line transfers, the data and the lines
left of it. -/
inductive Playing (len : Nat) : BitVec 8 → Bool → List (BitVec 8) →
    List (Option (List (BitVec 8))) → Prop
  | entry {e : HdmaEntry} (valid : e.Valid len) : Playing len e.count true e.data e.lines
  | held {m : BitVec 8} (some : m ≠ 0) (below : m < 0x80) :
      Playing len m false [] (List.replicate m.toNat none)

/-- The counter a line later. -/
theorem count_once : ∀ n : BitVec 8, n ≠ 0 → n ≤ 0x80 → n ≠ 1 →
    (n - 1) &&& 0x7F ≠ 0 ∧ (n - 1).getLsbD 7 = false ∧ n - 1 ≠ 0 ∧ n - 1 < 0x80 ∧
      (n - 1).toNat = n.toNat - 1 := by decide

theorem count_held : ∀ m : BitVec 8, m ≠ 0 → m < 0x80 → m ≠ 1 →
    (m - 1) &&& 0x7F ≠ 0 ∧ (m - 1).getLsbD 7 = false ∧ m - 1 ≠ 0 ∧ m - 1 < 0x80 ∧
      m.toNat = (m - 1).toNat + 1 := by decide

theorem count_every : ∀ k < 127, 0 < k →
    (0x80 + BitVec.ofNat 8 (k + 1)) - 1 = 0x80 + BitVec.ofNat 8 k ∧
      (0x80 + BitVec.ofNat 8 k) &&& 0x7F ≠ 0 ∧
      (0x80 + BitVec.ofNat 8 k : BitVec 8).getLsbD 7 = true := by decide

/-- A line of an entry: its row, and the entry done or going on. -/
theorem Playing.line {len : Nat} {c : BitVec 8} {tr : Bool} {data : List (BitVec 8)}
    {lines : List (Option (List (BitVec 8)))} (h : Playing len c tr data lines) :
    ∃ row rest later, lines = row :: later ∧ data = row.getD [] ++ rest ∧ tr = row.isSome ∧
      (∀ r, row = some r → r.length = len) ∧
      (((c - 1) &&& 0x7F = 0 ∧ rest = [] ∧ later = []) ∨
        ((c - 1) &&& 0x7F ≠ 0 ∧ Playing len (c - 1) ((c - 1).getLsbD 7) rest later)) := by
  cases h with
  | held hsome hbelow =>
    by_cases hlast : c = 1
    · subst hlast
      exact ⟨none, [], [], rfl, rfl, rfl, nofun, .inl ⟨by decide, rfl, rfl⟩⟩
    · obtain ⟨hmore, hbit, hne, hlt, hlen⟩ := count_held c hsome hbelow hlast
      rw [hlen]
      refine ⟨none, [], _, List.replicate_succ, rfl, rfl, nofun, .inr ⟨hmore, ?_⟩⟩
      rw [hbit]
      exact .held hne hlt
  | @entry e valid =>
    cases e with
    | once n row =>
      obtain ⟨hsome, hle, hrow⟩ := valid
      have hlen : ∀ r, some row = some r → r.length = len := fun r hr => Option.some.inj hr ▸ hrow
      refine ⟨some row, [], _, rfl, (List.append_nil _).symm, rfl, hlen, ?_⟩
      by_cases hlast : n = 1
      · subst hlast
        exact .inl ⟨(by decide : (1 : BitVec 8) - 1 &&& 0x7F = 0), rfl, rfl⟩
      · obtain ⟨hmore, hbit, hne, hlt, hcount⟩ := count_once n hsome hle hlast
        refine .inr ⟨hmore, ?_⟩
        change Playing len (n - 1) ((n - 1).getLsbD 7) [] (List.replicate (n.toNat - 1) none)
        rw [hbit, ← hcount]
        exact .held hne hlt
    | every rows =>
      obtain ⟨hsome, hle, hrows⟩ := valid
      cases rows with
      | nil => exact absurd rfl hsome
      | cons r rs =>
        obtain ⟨hr, hrs⟩ := List.forall_mem_cons.mp hrows
        have hlen : ∀ r', some r = some r' → r'.length = len := fun r' hr' => Option.some.inj hr' ▸ hr
        refine ⟨some r, rs.flatten, rs.map some, rfl, rfl, rfl, hlen, ?_⟩
        rw [List.length_cons] at hle
        cases rs with
        | nil => exact .inl ⟨(by decide : (0x80 + BitVec.ofNat 8 1) - 1 &&& 0x7F = 0), rfl, rfl⟩
        | cons r' rs =>
          obtain ⟨hnext, hmore, hbit⟩ := count_every (r' :: rs).length hle (Nat.succ_pos _)
          have hcount : (HdmaEntry.every (r :: r' :: rs)).count - 1 =
              (HdmaEntry.every (r' :: rs)).count := hnext
          rw [hcount]
          refine .inr ⟨hmore, ?_⟩
          have htransfer : (HdmaEntry.every (r' :: rs)).count.getLsbD 7 = true := hbit
          rw [htransfer]
          exact .entry ⟨List.cons_ne_nil _ _, Nat.le_of_succ_le hle, hrs⟩

/-! The table in memory, and what nobody else writes there. -/

variable {σ : Type} [DmaBoard σ] (keep : Set (BitVec 24))

/-- The bytes are in memory from `bank:a` on, wrapping in the bank. -/
def Holds (w : Wire σ) (bank : BitVec 8) : BitVec 16 → List (BitVec 8) → Prop
  | _, [] => True
  | a, v :: vs => bank ++ a ∈ keep ∧ w.bus.mem (bank ++ a) = some v ∧ Holds w bank (a + 1) vs

instance holdsDecidable [DecidablePred (· ∈ keep)] (w : Wire σ) (bank : BitVec 8) (a : BitVec 16)
    (vs : List (BitVec 8)) : Decidable (Holds keep w bank a vs) :=
  match vs with
  | [] => isTrue trivial
  | v :: vs =>
    have := holdsDecidable w bank (a + 1) vs
    inferInstanceAs (Decidable (bank ++ a ∈ keep ∧ w.bus.mem (bank ++ a) = some v ∧
      Holds keep w bank (a + 1) vs))

/-- A channel's table from `a` on, the rows where its addresses say if it is indirect. -/
def Table (w : Wire σ) (ch : DmaChannel) : BitVec 16 → List HdmaEntry → Prop
  | a, [] =>
    if ch.indirect then ∃ lo hi, Holds keep w ch.aBank a [0, lo, hi] else Holds keep w ch.aBank a [0]
  | a, e :: es =>
    if ch.indirect then ∃ lo hi, Holds keep w ch.aBank a [e.count, lo, hi] ∧
      Holds keep w ch.indBank (hi ++ lo) e.data ∧ Table w ch (a + 1 + 1 + 1) es
    else Holds keep w ch.aBank a (e.count :: e.data) ∧
      Table w ch (a + 1 + BitVec.ofNat 16 e.data.length) es

/-- The rest of an entry's data, and the entries after it. -/
def Source (w : Wire σ) (ch : DmaChannel) (data : List (BitVec 8)) (es : List HdmaEntry) : Prop :=
  if ch.indirect then Holds keep w ch.indBank ch.size data ∧ Table keep w ch ch.tableAdr es
  else Holds keep w ch.aBank ch.tableAdr data ∧
    Table keep w ch (ch.tableAdr + BitVec.ofNat 16 data.length) es

/-- What HDMA leaves alone of a channel. -/
structure SameSetup (ch ch' : DmaChannel) : Prop where
  bAdr : ch'.bAdr = ch.bAdr
  aBank : ch'.aBank = ch.aBank
  indBank : ch'.indBank = ch.indBank
  hdmaActive : ch'.hdmaActive = ch.hdmaActive
  mode : ch'.mode = ch.mode
  indirect : ch'.indirect = ch.indirect
  fromB : ch'.fromB = ch.fromB

theorem SameSetup.refl (ch : DmaChannel) : SameSetup ch ch := ⟨rfl, rfl, rfl, rfl, rfl, rfl, rfl⟩

theorem SameSetup.trans {a b c : DmaChannel} (h : SameSetup a b) (h' : SameSetup b c) :
    SameSetup a c :=
  ⟨h'.bAdr.trans h.bAdr, h'.aBank.trans h.aBank, h'.indBank.trans h.indBank,
    h'.hdmaActive.trans h.hdmaActive, h'.mode.trans h.mode, h'.indirect.trans h.indirect,
    h'.fromB.trans h.fromB⟩

theorem SameSetup.counters (ch : DmaChannel) (repCount : BitVec 8) (doTransfer terminated : Bool) :
    SameSetup ch { ch with repCount, doTransfer, terminated } := ⟨rfl, rfl, rfl, rfl, rfl, rfl, rfl⟩

/-- Memory as it was, where it is kept. -/
def SameMem (w w' : Wire σ) : Prop := ∀ a ∈ keep, w'.bus.mem a = w.bus.mem a

section Kept

variable {keep} {w w' : Wire σ} {ch ch' : DmaChannel}

theorem SameMem.holds (hmem : SameMem keep w w') {bank : BitVec 8} {a : BitVec 16}
    {vs : List (BitVec 8)} (h : Holds keep w bank a vs) : Holds keep w' bank a vs := by
  induction vs generalizing a with
  | nil => exact trivial
  | cons v vs ih =>
    obtain ⟨hin, hv, hvs⟩ := h
    exact ⟨hin, (hmem _ hin).trans hv, ih hvs⟩

theorem SameMem.table (hmem : SameMem keep w w') (hsame : SameSetup ch ch') {a : BitVec 16}
    {es : List HdmaEntry} (h : Table keep w ch a es) : Table keep w' ch' a es := by
  induction es generalizing a with
  | nil =>
    unfold Table at h ⊢
    rw [hsame.indirect, hsame.aBank]
    split at h
    next hind =>
      obtain ⟨lo, hi, h⟩ := h
      rw [if_pos hind]
      exact ⟨lo, hi, hmem.holds h⟩
    next hdirect =>
      rw [if_neg hdirect]
      exact hmem.holds h
  | cons e es ih =>
    unfold Table at h ⊢
    rw [hsame.indirect, hsame.aBank, hsame.indBank]
    split at h
    next hind =>
      obtain ⟨lo, hi, hhead, hrow, hrest⟩ := h
      rw [if_pos hind]
      exact ⟨lo, hi, hmem.holds hhead, hmem.holds hrow, ih hrest⟩
    next hdirect =>
      obtain ⟨hhead, hrest⟩ := h
      rw [if_neg hdirect]
      exact ⟨hmem.holds hhead, ih hrest⟩

theorem SameMem.source (hmem : SameMem keep w w') (hsame : SameSetup ch ch')
    (htable : ch'.tableAdr = ch.tableAdr) (hsize : ch'.size = ch.size) {data : List (BitVec 8)}
    {es : List HdmaEntry} (h : Source keep w ch data es) : Source keep w' ch' data es := by
  unfold Source at h ⊢
  rw [hsame.indirect, hsame.aBank, hsame.indBank, htable, hsize]
  split at h
  next hind =>
    rw [if_pos hind]
    exact ⟨hmem.holds h.1, hmem.table hsame h.2⟩
  next hdirect =>
    rw [if_neg hdirect]
    exact ⟨hmem.holds h.1, hmem.table hsame h.2⟩

end Kept

/-! What a step of a channel does: to the channel, and to the B bus. -/

/-- The bytes written so far. -/
def Wire.writes (w : Wire σ) : List (BitVec 24 × BitVec 8) :=
  (w.log.filter (·.write)).map fun a => (a.addr, a.value)

/-- From `w` to `w'` channel `i` has become `ch` and sent `out`. -/
structure Does (i : Fin 8) (w : Wire σ) (ch : DmaChannel) (out : List (BitVec 24 × BitVec 8))
    (w' : Wire σ) : Prop where
  mem : SameMem keep w w'
  dma : w'.dma = w.dma.update i fun _ => ch
  writes : w'.writes = w.writes ++ out

section Does

variable {keep} {i : Fin 8} {w u w' : Wire σ} {ch ch' c : DmaChannel}
  {out out' : List (BitVec 24 × BitVec 8)}

theorem Does.refl (hc : w.dma[i] = c) : Does keep i w c [] w where
  mem := fun _ _ => rfl
  dma := by
    rw [← hc]
    exact congrArg (Dma.mk · _) (Vector.set_getElem_self i.isLt).symm
  writes := (List.append_nil _).symm

theorem Does.trans (h : Does keep i w ch out u) (h' : Does keep i u ch' out' w') :
    Does keep i w ch' (out ++ out') w' where
  mem := fun a ha => (h'.mem a ha).trans (h.mem a ha)
  dma := by rw [h'.dma, h.dma, update_update]
  writes := by rw [h'.writes, h.writes, List.append_assoc]

theorem Does.channel (h : Does keep i w ch out w') : w'.dma[i] = ch := by
  rw [h.dma, update_channel, if_pos rfl]

/-! The operations of a channel. -/

omit [DmaBoard σ] in
theorem bind_of_some {α β : Type} {m : BusM σ α} {x : α} (f : α → BusM σ β)
    (h : m w = some (x, w')) : (m >>= f) w = f x w' := by
  change (m w).bind _ = _
  rw [h]
  rfl

variable (keep) in
theorem setChannel_does (f : DmaChannel → DmaChannel) (hc : w.dma[i] = c) :
    ∃ w', (setChannel i f : BusM σ Unit) w = some ((), w') ∧ Does keep i w (f c) [] w' := by
  refine ⟨_, rfl, fun _ _ => rfl, ?_, (List.append_nil _).symm⟩
  rw [setDma_dma, ← hc]
  rfl

theorem read8_mem {a : BitVec 24} {v : BitVec 8} (h : w.bus.mem a = some v) :
    ∃ w', read8 a w = some (v, w') ∧ w'.bus = w.bus ∧ w'.writes = w.writes := by
  refine ⟨{ w with mdr := v, log := w.log ++ [⟨a, false, v, w.mdr, w.clocks a⟩] }, ?_, rfl, ?_⟩
  · unfold read8
    rw [busRead_mem h]
    rfl
  · simp [Wire.writes]

/-- A read of memory is nothing a channel does. -/
theorem read8_does {a : BitVec 24} {v : BitVec 8} (hin : a ∈ keep) (hd : Does keep i w ch out u)
    (h : w.bus.mem a = some v) : ∃ w', read8 a u = some (v, w') ∧ Does keep i w ch out w' := by
  obtain ⟨w', hread, hbus, hwrites⟩ := read8_mem ((hd.mem a hin).trans h)
  have hdma : w'.dma = u.dma := congrArg (fun b : Bus σ => DmaBoard.dma b.hw) hbus
  refine ⟨w', hread, fun b hb => ?_, hdma.trans hd.dma, hwrites.trans hd.writes⟩
  rw [hbus]
  exact hd.mem b hb

/-- A byte of the table. -/
theorem hdmaFetch_does {v : BitVec 8} (hc : w.dma[i] = c) (hin : c.aBank ++ c.tableAdr ∈ keep)
    (hmem : w.bus.mem (c.aBank ++ c.tableAdr) = some v) : ∃ w', hdmaFetch i w = some (v, w') ∧
      Does keep i w { c with tableAdr := c.tableAdr + 1 } [] w' := by
  subst hc
  obtain ⟨u, hset, hdone⟩ := setChannel_does (w := w) keep
    (fun ch => { ch with tableAdr := ch.tableAdr + 1 }) rfl
  obtain ⟨w', hread, hdone⟩ := read8_does hin hdone hmem
  refine ⟨w', ?_, hdone⟩
  exact (bind_of_some _ rfl).trans ((bind_of_some _ hset).trans hread)

theorem low_or_high (lo hi : BitVec 8) : lo.setWidth 16 ||| (hi.setWidth 16 <<< 8) = hi ++ lo := by
  refine BitVec.eq_of_getLsbD_eq fun k hk => ?_
  simp only [BitVec.getLsbD_or, BitVec.getLsbD_setWidth, BitVec.getLsbD_shiftLeft,
    BitVec.getLsbD_append]
  by_cases hlow : k < 8
  · simp [hlow, hk]
  · have hhigh : k - 8 < 16 := by omega
    simp [hlow, hk, hhigh, BitVec.getLsbD_of_ge lo k (by omega)]

/-- The address of an indirect entry. -/
theorem hdmaIndirect_does {lo hi : BitVec 8} (hc : w.dma[i] = c)
    (hmem : Holds keep w c.aBank c.tableAdr [lo, hi]) : ∃ w', hdmaIndirect i w = some ((), w') ∧
      Does keep i w { c with tableAdr := c.tableAdr + 1 + 1, size := hi ++ lo } [] w' := by
  obtain ⟨hlin, hlo, hhin, hhi, -⟩ := hmem
  obtain ⟨u₁, h₁, d₁⟩ := hdmaFetch_does hc hlin hlo
  obtain ⟨u₂, h₂, d₂⟩ := setChannel_does keep
    (fun ch => { ch with size := lo.setWidth 16 }) d₁.channel
  have d₁₂ := d₁.trans d₂
  obtain ⟨u₃, h₃, d₃⟩ := hdmaFetch_does d₂.channel hhin ((d₁₂.mem _ hhin).trans hhi)
  obtain ⟨w', h₄, d₄⟩ := setChannel_does keep
    (fun ch => { ch with size := ch.size ||| (hi.setWidth 16 <<< 8) }) d₃.channel
  refine ⟨w', ?_, ?_⟩
  · exact (bind_of_some _ h₁).trans ((bind_of_some _ h₂).trans ((bind_of_some _ h₃).trans h₄))
  · have hall := d₁₂.trans (d₃.trans d₄)
    dsimp only at hall
    rw [low_or_high] at hall
    exact hall

theorem hdmaReload_direct {v : BitVec 8} (hc : w.dma[i] = c) (hdirect : ¬c.indirect = true)
    (hmem : Holds keep w c.aBank c.tableAdr [v]) : ∃ w', hdmaReload i w = some ((), w') ∧
      Does keep i w { c with tableAdr := c.tableAdr + 1, repCount := v } [] w' := by
  obtain ⟨hin, hv, -⟩ := hmem
  obtain ⟨u, h₁, d₁⟩ := hdmaFetch_does hc hin hv
  obtain ⟨w', h₂, d₂⟩ := setChannel_does keep (fun ch => { ch with repCount := v }) d₁.channel
  refine ⟨w', ?_, d₁.trans d₂⟩
  refine (bind_of_some _ h₁).trans ((bind_of_some _ h₂).trans ((bind_of_some _ rfl).trans ?_))
  rw [d₂.channel]
  dsimp only
  rw [if_neg hdirect]
  rfl

theorem hdmaReload_indirect {v lo hi : BitVec 8} (hc : w.dma[i] = c)
    (hindirect : c.indirect = true) (hmem : Holds keep w c.aBank c.tableAdr [v, lo, hi]) :
    ∃ w', hdmaReload i w = some ((), w') ∧
      Does keep i w { c with tableAdr := c.tableAdr + 1 + 1 + 1, repCount := v, size := hi ++ lo } []
        w' := by
  obtain ⟨hin, hv, hadr⟩ := hmem
  obtain ⟨u₁, h₁, d₁⟩ := hdmaFetch_does hc hin hv
  obtain ⟨u₂, h₂, d₂⟩ := setChannel_does keep (fun ch => { ch with repCount := v }) d₁.channel
  have d₁₂ := d₁.trans d₂
  obtain ⟨w', h₃, d₃⟩ := hdmaIndirect_does d₂.channel (d₁₂.mem.holds hadr)
  refine ⟨w', ?_, d₁₂.trans d₃⟩
  refine (bind_of_some _ h₁).trans ((bind_of_some _ h₂).trans ((bind_of_some _ rfl).trans ?_))
  rw [d₂.channel]
  dsimp only
  rw [if_pos hindirect]
  exact h₃

/-- The next entry, or the table's end. -/
theorem hdmaReload_does {es : List HdmaEntry} (hc : w.dma[i] = c)
    (hes : Table keep w c c.tableAdr es) : ∃ c' w', hdmaReload i w = some ((), w') ∧
      Does keep i w c' [] w' ∧ SameSetup c c' ∧ c'.terminated = c.terminated ∧
      c'.repCount = (es.head?.map HdmaEntry.count).getD 0 ∧
      ∀ e es', es = e :: es' → Source keep w' c' e.data es' := by
  unfold Table at hes
  by_cases hind : c.indirect = true
  · cases es with
    | nil =>
      obtain ⟨lo, hi, hend⟩ := (if_pos hind).mp hes
      obtain ⟨w', hrun, hdone⟩ := hdmaReload_indirect hc hind hend
      exact ⟨_, w', hrun, hdone, ⟨rfl, rfl, rfl, rfl, rfl, rfl, rfl⟩, rfl, rfl, nofun⟩
    | cons e es =>
      obtain ⟨lo, hi, hhead, hdata, hrest⟩ := (if_pos hind).mp hes
      obtain ⟨w', hrun, hdone⟩ := hdmaReload_indirect hc hind hhead
      refine ⟨_, w', hrun, hdone, ⟨rfl, rfl, rfl, rfl, rfl, rfl, rfl⟩, rfl, rfl, ?_⟩
      rintro _ _ ⟨⟩
      refine (if_pos hind).mpr ⟨hdone.mem.holds hdata, hdone.mem.table ?_ hrest⟩
      exact ⟨rfl, rfl, rfl, rfl, rfl, rfl, rfl⟩
  · cases es with
    | nil =>
      obtain ⟨w', hrun, hdone⟩ := hdmaReload_direct hc hind ((if_neg hind).mp hes)
      exact ⟨_, w', hrun, hdone, ⟨rfl, rfl, rfl, rfl, rfl, rfl, rfl⟩, rfl, rfl, nofun⟩
    | cons e es =>
      obtain ⟨⟨hin, hcount, hdata⟩, hrest⟩ := (if_neg hind).mp hes
      obtain ⟨w', hrun, hdone⟩ := hdmaReload_direct hc hind ⟨hin, hcount, trivial⟩
      refine ⟨_, w', hrun, hdone, ⟨rfl, rfl, rfl, rfl, rfl, rfl, rfl⟩, rfl, rfl, ?_⟩
      rintro _ _ ⟨⟩
      refine (if_neg hind).mpr ⟨hdone.mem.holds hdata, hdone.mem.table ?_ hrest⟩
      exact ⟨rfl, rfl, rfl, rfl, rfl, rfl, rfl⟩

/-! A line. -/

end Does

/-- Where byte `j` of a row goes. -/
def DmaChannel.target (ch : DmaChannel) (j : Nat) : BitVec 24 :=
  bBus (ch.bAdr + bAdrOffsets ch.mode (BitVec.ofNat 2 j))

/-- What a row sends, from its byte `j` on. -/
def DmaChannel.sends (ch : DmaChannel) : Nat → List (BitVec 8) → List (BitVec 24 × BitVec 8)
  | _, [] => []
  | j, v :: vs => (ch.target j, v) :: ch.sends (j + 1) vs

/-- Past `k` bytes of data. -/
def DmaChannel.skip (k : Nat) (ch : DmaChannel) : DmaChannel :=
  if ch.indirect then { ch with size := ch.size + BitVec.ofNat 16 k }
  else { ch with tableAdr := ch.tableAdr + BitVec.ofNat 16 k }

namespace DmaChannel

theorem sends_same {c c' : DmaChannel} (h : SameSetup c c') (j : Nat) (row : List (BitVec 8)) :
    c'.sends j row = c.sends j row := by
  induction row generalizing j with
  | nil => rfl
  | cons v vs ih =>
    unfold sends target
    rw [h.bAdr, h.mode, ih]

theorem skip_same (k : Nat) (c : DmaChannel) : SameSetup c (c.skip k) := by
  unfold skip
  split
  next => exact ⟨rfl, rfl, rfl, rfl, rfl, rfl, rfl⟩
  next => exact ⟨rfl, rfl, rfl, rfl, rfl, rfl, rfl⟩

theorem skip_skip (k : Nat) (c : DmaChannel) : (c.skip 1).skip k = c.skip (k + 1) := by
  have hadd (x : BitVec 16) :
      x + BitVec.ofNat 16 1 + BitVec.ofNat 16 k = x + BitVec.ofNat 16 (k + 1) := by
    rw [BitVec.ofNat_add]
    grind
  by_cases hind : c.indirect = true
  · simp [skip, hind, ← hadd]
  · simp [skip, hind, ← hadd]

theorem skip_counters (k : Nat) (c : DmaChannel) :
    (c.skip k).repCount = c.repCount ∧ (c.skip k).inUse = c.inUse := by
  unfold skip inUse
  split
  next => exact ⟨rfl, rfl⟩
  next => exact ⟨rfl, rfl⟩

theorem skip_zero (c : DmaChannel) : c.skip 0 = c := by
  unfold skip
  split
  next => simp
  next => simp

end DmaChannel

/-- Writes there are taken, and reach neither what is kept nor the DMA's registers. -/
def Sink (σ : Type) [DmaBoard σ] (keep : Set (BitVec 24)) (a : BitVec 24) : Prop :=
  ∀ v (w : Wire σ), ∃ b, busWrite a v w = some b ∧ DmaBoard.dma b.hw = w.dma ∧
    ∀ a' ∈ keep, b.mem a' = w.bus.mem a'

section Lines

variable {keep} {i : Fin 8} {w u w' : Wire σ} {ch ch' c : DmaChannel}
  {out out' : List (BitVec 24 × BitVec 8)}

theorem write8_does {a : BitVec 24} (hsink : Sink σ keep a) (v : BitVec 8)
    (hd : Does keep i w ch out u) :
    ∃ w', write8 a v u = some ((), w') ∧ Does keep i w ch (out ++ [(a, v)]) w' := by
  obtain ⟨b, hwrite, hdma, hmem⟩ := hsink v { u with mdr := v }
  refine ⟨{ u with bus := b, mdr := v, log := u.log ++ [⟨a, true, v, u.mdr, u.clocks a⟩] },
    ?_, ?_, ?_, ?_⟩
  · unfold write8
    rw [hwrite]
    rfl
  · intro a' ha'
    exact (hmem a' ha').trans (hd.mem a' ha')
  · exact hdma.trans hd.dma
  · rw [← List.append_assoc, ← hd.writes]
    simp [Wire.writes]

/-- Where the next byte of data is. -/
def DmaChannel.pointer (ch : DmaChannel) : BitVec 24 :=
  if ch.indirect then ch.indBank ++ ch.size else ch.aBank ++ ch.tableAdr

theorem Source.next {v : BitVec 8} {data : List (BitVec 8)} {es : List HdmaEntry}
    (h : Source keep w c (v :: data) es) :
    c.pointer ∈ keep ∧ w.bus.mem c.pointer = some v ∧ Source keep w (c.skip 1) data es := by
  have hsame := c.skip_same 1
  by_cases hind : c.indirect = true
  · obtain ⟨⟨hin, hv, hdata⟩, hes⟩ := (if_pos hind).mp h
    rw [DmaChannel.pointer, if_pos hind]
    refine ⟨hin, hv, (if_pos (hsame.indirect.trans hind)).mpr ?_⟩
    rw [DmaChannel.skip, if_pos hind] at hsame ⊢
    exact ⟨hdata, SameMem.table (fun _ _ => rfl) hsame hes⟩
  · obtain ⟨⟨hin, hv, hdata⟩, hes⟩ := (if_neg hind).mp h
    have hnext : c.tableAdr + BitVec.ofNat 16 (data.length + 1) =
        c.tableAdr + 1 + BitVec.ofNat 16 data.length := by
      rw [BitVec.ofNat_add]
      grind
    rw [List.length_cons, hnext] at hes
    rw [DmaChannel.pointer, if_neg hind]
    refine ⟨hin, hv, (if_neg (hsame.indirect.symm ▸ hind)).mpr ?_⟩
    rw [DmaChannel.skip, if_neg hind] at hsame ⊢
    exact ⟨hdata, SameMem.table (fun _ _ => rfl) hsame hes⟩

theorem Source.table {es : List HdmaEntry} (h : Source keep w c [] es) :
    Table keep w c c.tableAdr es := by
  by_cases hind : c.indirect = true
  · exact ((if_pos hind).mp h).2
  · have hes := ((if_neg hind).mp h).2
    simpa using hes

theorem Does.source (h : Does keep i w ch out w') {data : List (BitVec 8)} {es : List HdmaEntry}
    (hsource : Source keep w c data es) : Source keep w' c data es :=
  h.mem.source (.refl c) rfl rfl hsource

theorem hdmaByte_does {j : Nat} {v : BitVec 8} {data : List (BitVec 8)} {es : List HdmaEntry}
    (hc : w.dma[i] = c) (hfrom : c.fromB = false) (hsink : Sink σ keep (c.target j))
    (h : Source keep w c (v :: data) es) : ∃ w', hdmaByte i (BitVec.ofNat 2 j) w = some ((), w') ∧
      Does keep i w (c.skip 1) [(c.target j, v)] w' ∧ Source keep w' (c.skip 1) data es := by
  obtain ⟨hin, hv, hrest⟩ := h.next
  have hto : ¬c.fromB = true := Bool.eq_false_iff.mp hfrom
  by_cases hind : c.indirect = true
  · rw [DmaChannel.pointer, if_pos hind] at hin hv
    rw [DmaChannel.skip, if_pos hind] at hrest ⊢
    obtain ⟨u₁, h₁, d₁⟩ := setChannel_does keep (fun ch => { ch with size := ch.size + 1 }) hc
    obtain ⟨u₂, h₂, d₂⟩ := read8_does hin d₁ hv
    obtain ⟨w', h₃, d₃⟩ := write8_does hsink v d₂
    refine ⟨w', ?_, d₃, d₃.source hrest⟩
    refine (bind_of_some _ rfl).trans ?_
    rw [hc, if_pos hind]
    refine (bind_of_some _ h₁).trans ?_
    rw [transferByte, if_neg hto]
    exact (bind_of_some _ h₂).trans h₃
  · rw [DmaChannel.pointer, if_neg hind] at hin hv
    rw [DmaChannel.skip, if_neg hind] at hrest ⊢
    obtain ⟨u₁, h₁, d₁⟩ := setChannel_does keep (fun ch => { ch with tableAdr := ch.tableAdr + 1 }) hc
    obtain ⟨u₂, h₂, d₂⟩ := read8_does hin d₁ hv
    obtain ⟨w', h₃, d₃⟩ := write8_does hsink v d₂
    refine ⟨w', ?_, d₃, d₃.source hrest⟩
    refine (bind_of_some _ rfl).trans ?_
    rw [hc, if_neg hind]
    refine (bind_of_some _ h₁).trans ?_
    rw [transferByte, if_neg hto]
    exact (bind_of_some _ h₂).trans h₃

/-- A row goes to the B bus. -/
theorem hdmaBytes_does {n j : Nat} {row data : List (BitVec 8)} {es : List HdmaEntry}
    (hc : w.dma[i] = c) (hfrom : c.fromB = false)
    (hsink : ∀ j < hdmaLen c.mode, Sink σ keep (c.target j)) (hlen : j + row.length = hdmaLen c.mode)
    (hn : row.length ≤ n) (h : Source keep w c (row ++ data) es) :
    ∃ w', hdmaBytes i n j w = some ((), w') ∧ Does keep i w (c.skip row.length) (c.sends j row) w' ∧
      Source keep w' (c.skip row.length) data es := by
  induction row generalizing n j w c with
  | nil =>
    have hdone : hdmaBytes i n j w = some ((), w) := by
      cases n with
      | zero => rfl
      | succ n =>
        have hall : ¬j < hdmaLen c.mode := Nat.not_lt.mpr hlen.ge
        refine (bind_of_some _ rfl).trans ?_
        rw [hc, if_neg hall]
        rfl
    rw [List.length_nil, DmaChannel.skip_zero]
    exact ⟨w, hdone, .refl hc, h⟩
  | cons v row ih =>
    cases n with
    | zero => exact absurd hn (Nat.not_succ_le_zero _)
    | succ n =>
      have hsame := c.skip_same 1
      rw [List.length_cons] at hlen hn ⊢
      have hj : j < hdmaLen c.mode := by omega
      obtain ⟨u, hbyte, hdone, hrest⟩ := hdmaByte_does hc hfrom (hsink j hj) h
      have hsinks : ∀ k < hdmaLen (c.skip 1).mode, Sink σ keep ((c.skip 1).target k) := by
        intro k hk
        rw [DmaChannel.target, hsame.bAdr, hsame.mode]
        exact hsink k (hsame.mode ▸ hk)
      have hnext : j + 1 + row.length = hdmaLen (c.skip 1).mode := by
        rw [hsame.mode]
        omega
      obtain ⟨w', hrun, hall, hdata⟩ := ih hdone.channel (hsame.fromB.trans hfrom) hsinks hnext
        (Nat.le_of_succ_le_succ hn) hrest
      rw [DmaChannel.skip_skip] at hall hdata
      rw [DmaChannel.sends_same hsame] at hall
      refine ⟨w', ?_, hdone.trans hall, hdata⟩
      refine (bind_of_some _ rfl).trans ?_
      rw [hc, if_pos hj]
      exact (bind_of_some _ hbyte).trans hrun

/-! The line counter. -/

variable (keep) in
theorem hdmaCount_more (hc : w.dma[i] = c) (hmore : (c.repCount - 1) &&& 0x7F ≠ 0) :
    ∃ w', hdmaCount i w = some ((), w') ∧ Does keep i w
      { c with repCount := c.repCount - 1, doTransfer := (c.repCount - 1).getLsbD 7 } [] w' := by
  obtain ⟨w', h, d⟩ := setChannel_does keep (fun ch =>
    { ch with repCount := ch.repCount - 1, doTransfer := (ch.repCount - 1).getLsbD 7 }) hc
  refine ⟨w', ?_, d⟩
  refine (bind_of_some _ h).trans ((bind_of_some _ rfl).trans ?_)
  rw [d.channel]
  exact congrFun (if_neg hmore) w'

theorem hdmaCount_next {es : List HdmaEntry} (hc : w.dma[i] = c)
    (hlast : (c.repCount - 1) &&& 0x7F = 0) (hes : Table keep w c c.tableAdr es) :
    ∃ c' w', hdmaCount i w = some ((), w') ∧ Does keep i w c' [] w' ∧ SameSetup c c' ∧
      c'.doTransfer = true ∧ c'.repCount = (es.head?.map HdmaEntry.count).getD 0 ∧
      c'.terminated = (c.terminated || c'.repCount = 0) ∧
      ∀ e es', es = e :: es' → Source keep w' c' e.data es' := by
  obtain ⟨u, h₁, d₁⟩ := setChannel_does keep (fun ch =>
    { ch with repCount := ch.repCount - 1, doTransfer := (ch.repCount - 1).getLsbD 7 }) hc
  obtain ⟨c₂, u₂, h₂, d₂, hsame, hended, hcount, hsource⟩ := hdmaReload_does d₁.channel
    (d₁.mem.table (.counters c _ _ c.terminated) hes)
  obtain ⟨w', h₃, d₃⟩ := setChannel_does keep (fun ch =>
    { ch with terminated := ch.terminated || ch.repCount = 0, doTransfer := true }) d₂.channel
  refine ⟨_, w', ?_, d₁.trans (d₂.trans d₃), ?_, rfl, hcount, ?_, fun e es' he => ?_⟩
  · refine (bind_of_some _ h₁).trans ((bind_of_some _ rfl).trans ?_)
    rw [d₁.channel]
    refine (congrFun (if_pos hlast) u).trans ?_
    exact (bind_of_some _ h₂).trans h₃
  · exact (SameSetup.counters c _ _ c.terminated).trans (hsame.trans (.counters c₂ c₂.repCount _ _))
  · exact congrArg (· || decide (c₂.repCount = 0)) hended
  · exact d₃.mem.source (.counters c₂ c₂.repCount true (c₂.terminated || c₂.repCount = 0)) rfl rfl
      (hsource e es' he)

end Lines

/-- Channel `ch` has these lines left to play. -/
inductive Plays (w : Wire σ) (ch : DmaChannel) : List (Option (List (BitVec 8))) → Prop
  | done (off : ch.inUse = false) : Plays w ch []
  | within {data : List (BitVec 8)} {lines : List (Option (List (BitVec 8)))} {es : List HdmaEntry}
      (on : ch.inUse = true) (playing : Playing (hdmaLen ch.mode) ch.repCount ch.doTransfer data lines)
      (source : Source keep w ch data es) (valid : ∀ e ∈ es, e.Valid (hdmaLen ch.mode)) :
      Plays w ch (lines ++ es.flatMap HdmaEntry.lines)

/-- In use, it sends to the B bus, where the writes reach nothing kept. -/
structure Outward (σ : Type) [DmaBoard σ] (keep : Set (BitVec 24)) (ch : DmaChannel) : Prop where
  fromB : ch.fromB = false
  sink : ∀ j < hdmaLen ch.mode, Sink σ keep (ch.target j)

section Channel

variable {keep} {i : Fin 8} {w u w' : Wire σ} {ch ch' c : DmaChannel}
  {out out' : List (BitVec 24 × BitVec 8)}

theorem hdmaCount_plays {len : Nat} {n : BitVec 8} {data : List (BitVec 8)}
    {lines : List (Option (List (BitVec 8)))} {es : List HdmaEntry} (hc : w.dma[i] = c)
    (hlen : hdmaLen c.mode = len) (hn : c.repCount = n) (on : c.inUse = true)
    (source : Source keep w c data es) (valid : ∀ e ∈ es, e.Valid len)
    (hnext : ((n - 1) &&& 0x7F = 0 ∧ data = [] ∧ lines = []) ∨
      ((n - 1) &&& 0x7F ≠ 0 ∧ Playing len (n - 1) ((n - 1).getLsbD 7) data lines)) :
    ∃ c' w', hdmaCount i w = some ((), w') ∧ Does keep i w c' [] w' ∧ SameSetup c c' ∧
      Plays keep w' c' (lines ++ es.flatMap HdmaEntry.lines) := by
  subst hlen hn
  obtain ⟨hlast, rfl, rfl⟩ | ⟨hmore, hplaying⟩ := hnext
  · obtain ⟨c', w', hrun, hdone, hsame, htransfer, hcount, hended, hsource⟩ :=
      hdmaCount_next hc hlast source.table
    refine ⟨c', w', hrun, hdone, hsame, ?_⟩
    cases es with
    | nil =>
      refine .done ?_
      have hzero : c'.repCount = 0 := hcount
      rw [DmaChannel.inUse, hended, hzero]
      simp
    | cons e es =>
      obtain ⟨he, hes⟩ := List.forall_mem_cons.mp valid
      have hplay : Playing (hdmaLen c'.mode) c'.repCount c'.doTransfer e.data e.lines := by
        rw [hsame.mode, hcount, htransfer]
        exact .entry he
      have hon : c'.inUse = true := by
        obtain ⟨hactive, hgoing⟩ := Bool.and_eq_true_iff.mp on
        have hgoing : c.terminated = false := by simpa using hgoing
        have hcount : c'.repCount ≠ 0 := hcount ▸ he.count_ne
        rw [DmaChannel.inUse, hsame.hdmaActive, hactive, hended, hgoing, decide_eq_false hcount]
        rfl
      have hplays : Plays keep w' c' (e.lines ++ es.flatMap HdmaEntry.lines) :=
        .within hon hplay (hsource e es rfl) (hsame.mode ▸ hes)
      exact hplays
  · obtain ⟨w', hrun, hdone⟩ := hdmaCount_more keep hc hmore
    have hsame := SameSetup.counters c (c.repCount - 1) ((c.repCount - 1).getLsbD 7) c.terminated
    exact ⟨_, w', hrun, hdone, hsame, .within on hplaying (hdone.mem.source hsame rfl rfl source) valid⟩

/-- What line `n` of these sends. -/
def rowAt (lines : List (Option (List (BitVec 8)))) (n : Nat) : List (BitVec 8) :=
  (lines[n]?.join).getD []

/-- The transfer of a line, if it has one. -/
theorem hdmaRow_does {row : Option (List (BitVec 8))} {rest : List (BitVec 8)} {es : List HdmaEntry}
    (hc : w.dma[i] = c) (hout : Outward σ keep c) (htransfer : c.doTransfer = row.isSome)
    (hrow : ∀ r, row = some r → r.length = hdmaLen c.mode)
    (h : Source keep w c (row.getD [] ++ rest) es) :
    ∃ w', (if c.doTransfer then hdmaBytes i 4 0 else pure ()) w = some ((), w') ∧
      Does keep i w (c.skip (row.getD []).length) (c.sends 0 (row.getD [])) w' ∧
      Source keep w' (c.skip (row.getD []).length) rest es := by
  have hfour : ∀ mode : BitVec 3, hdmaLen mode ≤ 4 := by decide
  cases row with
  | none =>
    rw [htransfer, Option.getD_none, List.length_nil, DmaChannel.skip_zero]
    exact ⟨w, rfl, .refl hc, h⟩
  | some r =>
    have hlen := hrow r rfl
    rw [htransfer]
    exact hdmaBytes_does hc hout.fromB hout.sink ((Nat.zero_add _).trans hlen)
      (hlen.le.trans (hfour _)) h

/-- A line of a channel in use. -/
theorem hdmaLine_plays {data : List (BitVec 8)} {lines : List (Option (List (BitVec 8)))}
    {es : List HdmaEntry} (hc : w.dma[i] = c) (hout : Outward σ keep c) (on : c.inUse = true)
    (playing : Playing (hdmaLen c.mode) c.repCount c.doTransfer data lines)
    (source : Source keep w c data es) (valid : ∀ e ∈ es, e.Valid (hdmaLen c.mode)) :
    ∃ c' w', ((if c.doTransfer then hdmaBytes i 4 0 else pure ()) >>= fun _ => hdmaCount i) w =
        some ((), w') ∧
      Does keep i w c' (c.sends 0 (rowAt (lines ++ es.flatMap HdmaEntry.lines) 0)) w' ∧
      SameSetup c c' ∧ Plays keep w' c' (lines ++ es.flatMap HdmaEntry.lines).tail := by
  obtain ⟨row, rest, later, rfl, rfl, htransfer, hrow, hnext⟩ := playing.line
  obtain ⟨u, h₁, d₁, source⟩ := hdmaRow_does hc hout htransfer hrow source
  have hskip := c.skip_same (row.getD []).length
  obtain ⟨hcount, huse⟩ := c.skip_counters (row.getD []).length
  obtain ⟨c', w', h₂, d₂, hsame, hplays⟩ := hdmaCount_plays d₁.channel (congrArg hdmaLen hskip.mode)
    hcount (huse.trans on) source valid hnext
  have hboth := d₁.trans d₂
  rw [List.append_nil] at hboth
  exact ⟨c', w', (bind_of_some _ h₁).trans h₂, hboth, hskip.trans hsame, hplays⟩

/-- A line of a channel. -/
theorem hdmaChannel_plays {lines : List (Option (List (BitVec 8)))} (hc : w.dma[i] = c)
    (hout : c.hdmaActive = true → Outward σ keep c) (h : Plays keep w c lines) :
    ∃ c' w', hdmaChannel i w = some ((), w') ∧ Does keep i w c' (c.sends 0 (rowAt lines 0)) w' ∧
      SameSetup c c' ∧ Plays keep w' c' lines.tail := by
  cases h with
  | done off =>
    refine ⟨c, w, ?_, .refl hc, .refl c, .done off⟩
    refine (bind_of_some _ rfl).trans ?_
    rw [hc, off]
    rfl
  | @within data lines es on playing source valid =>
    have hout := hout (Bool.and_eq_true_iff.mp on).1
    obtain ⟨u, h₁, d₁⟩ := setChannel_does keep (fun ch =>
      { ch with dmaActive := false, offIndex := 0 }) hc
    have hsame : SameSetup c { c with dmaActive := false, offIndex := 0 } :=
      ⟨rfl, rfl, rfl, rfl, rfl, rfl, rfl⟩
    obtain ⟨c', w', h₂, d₂, hsame', hplays⟩ := hdmaLine_plays d₁.channel ⟨hout.fromB, hout.sink⟩ on
      playing (d₁.mem.source hsame rfl rfl source) valid
    have hboth := d₁.trans d₂
    rw [DmaChannel.sends_same hsame] at hboth
    refine ⟨c', w', ?_, hboth, hsame.trans hsame', hplays⟩
    refine (bind_of_some _ rfl).trans ?_
    rw [hc, if_pos on]
    refine (bind_of_some _ h₁).trans ((bind_of_some _ rfl).trans ?_)
    rw [d₁.channel]
    refine Eq.trans ?_ h₂
    by_cases htransfer : c.doTransfer = true
    · dsimp only
      rw [if_pos htransfer, if_pos htransfer]
    · dsimp only
      rw [if_neg htransfer, if_neg htransfer]
      rfl

end Channel

/-! A frame. -/

/-- What the program sets up: a channel HDMA leaves out, or one with a table at its address. -/
inductive Programmed (w : Wire σ) (ch : DmaChannel) : List HdmaEntry → Prop
  | off (inactive : ch.hdmaActive = false) : Programmed w ch []
  | on {e : HdmaEntry} {es : List HdmaEntry} (active : ch.hdmaActive = true)
      (valid : ∀ e' ∈ e :: es, e'.Valid (hdmaLen ch.mode)) (table : Table keep w ch ch.aAdr (e :: es))
      (outward : Outward σ keep ch) : Programmed w ch (e :: es)

/-- The channel set up as `ch₀` is at line `n` of its table's lines. -/
structure AtLine (ch₀ : DmaChannel) (lines : List (Option (List (BitVec 8)))) (n : Nat) (w : Wire σ)
    (ch : DmaChannel) : Prop where
  active : ch.hdmaActive = ch₀.hdmaActive
  off : ch₀.hdmaActive = false → lines = []
  setup : ch₀.hdmaActive = true → SameSetup ch₀ ch ∧ Outward σ keep ch₀
  plays : Plays keep w ch (lines.drop n)

section Frame

variable {keep} {i : Fin 8} {w u w' : Wire σ} {ch ch' c : DmaChannel}
  {out out' : List (BitVec 24 × BitVec 8)}

theorem initHdmaChannel_plays {es : List HdmaEntry} (hc : w.dma[i] = c)
    (h : Programmed keep w c es) : ∃ c' w', initHdmaChannel i w = some ((), w') ∧
      Does keep i w c' [] w' ∧ AtLine keep c (es.flatMap HdmaEntry.lines) 0 w' c' := by
  cases h with
  | off inactive =>
    obtain ⟨u, h₁, d₁⟩ := setChannel_does keep (fun ch => { ch with doTransfer := false }) hc
    obtain ⟨w', h₂, d₂⟩ := setChannel_does keep (fun ch => { ch with terminated := false }) d₁.channel
    refine ⟨_, w', ?_, d₁.trans d₂, rfl, fun _ => rfl, fun hon => ?_, .done ?_⟩
    · refine (bind_of_some _ rfl).trans ?_
      rw [hc, inactive]
      exact (bind_of_some _ h₁).trans h₂
    · exact absurd (hon.symm.trans inactive) nofun
    · rw [DmaChannel.inUse, inactive]
      rfl
  | @on e es active valid table outward =>
    obtain ⟨u₁, h₁, d₁⟩ := setChannel_does keep (fun ch =>
      { ch with dmaActive := false, offIndex := 0, tableAdr := ch.aAdr }) hc
    have hsame₁ : SameSetup c { c with dmaActive := false, offIndex := 0, tableAdr := c.aAdr } :=
      ⟨rfl, rfl, rfl, rfl, rfl, rfl, rfl⟩
    obtain ⟨c₂, u₂, h₂, d₂, hsame₂, -, hcount, hsource⟩ :=
      hdmaReload_does d₁.channel (d₁.mem.table hsame₁ table)
    obtain ⟨u₃, h₃, d₃⟩ := setChannel_does keep (fun ch => { ch with doTransfer := true }) d₂.channel
    obtain ⟨w', h₄, d₄⟩ := setChannel_does keep (fun ch => { ch with terminated := false }) d₃.channel
    have hsame₃ := SameSetup.counters c₂ c₂.repCount true false
    have hsame := hsame₁.trans (hsame₂.trans hsame₃)
    obtain ⟨he, hes⟩ := List.forall_mem_cons.mp valid
    have d₃₄ := d₃.trans d₄
    refine ⟨_, w', ?_, d₁.trans (d₂.trans d₃₄), hsame.hdmaActive, fun hoff => ?_,
      fun _ => ⟨hsame, outward⟩, ?_⟩
    · refine (bind_of_some _ rfl).trans ?_
      rw [hc, if_pos active]
      exact (bind_of_some _ h₁).trans ((bind_of_some _ h₂).trans ((bind_of_some _ h₃).trans h₄))
    · exact absurd (active.symm.trans hoff) nofun
    · have hplaying : Playing (hdmaLen c₂.mode) c₂.repCount true e.data e.lines := by
        have hcount : c₂.repCount = e.count := hcount
        rw [hsame.mode, hcount]
        exact .entry he
      refine .within ?_ hplaying (d₃₄.mem.source hsame₃ rfl rfl (hsource e es rfl)) (hsame.mode ▸ hes)
      rw [DmaChannel.inUse, hsame.hdmaActive, active]
      rfl

theorem AtLine.next {c₀ : DmaChannel} {lines : List (Option (List (BitVec 8)))} {n : Nat}
    (hc : w.dma[i] = c) (h : AtLine keep c₀ lines n w c) :
    ∃ c' w', hdmaChannel i w = some ((), w') ∧ Does keep i w c' (c₀.sends 0 (rowAt lines n)) w' ∧
      AtLine keep c₀ lines (n + 1) w' c' := by
  have hout : c.hdmaActive = true → Outward σ keep c := fun hon => by
    obtain ⟨hsame, hfrom, hsink⟩ := h.setup (h.active ▸ hon)
    refine ⟨hsame.fromB.trans hfrom, fun j hj => ?_⟩
    rw [DmaChannel.target, hsame.bAdr, hsame.mode]
    exact hsink j (hsame.mode ▸ hj)
  obtain ⟨c', w', hrun, hdone, hsame, hplays⟩ := hdmaChannel_plays hc hout h.plays
  have hsends : c.sends 0 (rowAt (lines.drop n) 0) = c₀.sends 0 (rowAt lines n) := by
    cases hon : c₀.hdmaActive with
    | true =>
      rw [DmaChannel.sends_same (h.setup hon).1, rowAt, List.getElem?_drop]
      rfl
    | false =>
      rw [h.off hon]
      simp [rowAt, DmaChannel.sends]
  rw [hsends] at hdone
  rw [List.tail_drop] at hplays
  exact ⟨c', w', hrun, hdone, hsame.hdmaActive.trans h.active, h.off,
    fun hon => ⟨(h.setup hon).1.trans hsame, (h.setup hon).2⟩, hplays⟩

theorem SameMem.plays (hmem : SameMem keep w w') {lines : List (Option (List (BitVec 8)))}
    (h : Plays keep w c lines) : Plays keep w' c lines := by
  cases h with
  | done off => exact .done off
  | within on playing source valid =>
    exact .within on playing (hmem.source (.refl c) rfl rfl source) valid

theorem SameMem.programmed (hmem : SameMem keep w w') {es : List HdmaEntry}
    (h : Programmed keep w c es) : Programmed keep w' c es := by
  cases h with
  | off inactive => exact .off inactive
  | on active valid table outward => exact .on active valid (hmem.table (.refl c) table) outward

/-- One channel after another: what a channel does leaves the others as they are. -/
theorem forM_channels {op : Fin 8 → BusM σ Unit} {outs : Fin 8 → List (BitVec 24 × BitVec 8)}
    {P Q : Fin 8 → Wire σ → DmaChannel → Prop}
    (hP : ∀ i w w' c, SameMem keep w w' → P i w c → P i w' c)
    (hQ : ∀ i w w' c, SameMem keep w w' → Q i w c → Q i w' c)
    (hop : ∀ i w, P i w w.dma[i] →
      ∃ c w', op i w = some ((), w') ∧ Does keep i w c (outs i) w' ∧ Q i w' c)
    {is : List (Fin 8)} (hnodup : is.Nodup) (h : ∀ i ∈ is, P i w w.dma[i]) :
    ∃ w', is.forM op w = some ((), w') ∧ SameMem keep w w' ∧ w'.writes = w.writes ++ is.flatMap outs ∧
      (∀ i ∈ is, Q i w' w'.dma[i]) ∧ ∀ j ∉ is, w'.dma[j] = w.dma[j] := by
  induction is generalizing w with
  | nil => exact ⟨w, rfl, fun _ _ => rfl, (List.append_nil _).symm, nofun, fun _ _ => rfl⟩
  | cons i is ih =>
    obtain ⟨hfresh, hnodup⟩ := List.nodup_cons.mp hnodup
    obtain ⟨hi, his⟩ := List.forall_mem_cons.mp h
    obtain ⟨c, u, hrun, hdone, hq⟩ := hop i w hi
    have hother : ∀ j, j ≠ i → u.dma[j] = w.dma[j] := fun j hj => by
      rw [hdone.dma, update_channel, if_neg hj]
    obtain ⟨w', hrest, hmem, hwrites, hall, hkept⟩ := ih hnodup (w := u) fun j hj => by
      rw [hother j fun hij => hfresh (hij ▸ hj)]
      exact hP j w u _ hdone.mem (his j hj)
    refine ⟨w', ?_, fun a ha => (hmem a ha).trans (hdone.mem a ha), ?_, ?_, fun j hj => ?_⟩
    · exact (bind_of_some _ hrun).trans hrest
    · rw [hwrites, hdone.writes, List.append_assoc, List.flatMap_cons]
    · refine List.forall_mem_cons.mpr ⟨?_, hall⟩
      rw [hkept i hfresh, hdone.channel]
      exact hQ i u w' c hmem hq
    · have hnot := List.not_mem_of_not_mem_cons hj
      exact (hkept j hnot).trans (hother j (List.ne_of_not_mem_cons hj))

end Frame

/-- From the start of a frame: HDMA runs its lines, and between them the program leaves alone what
is kept and the channels HDMA uses. -/
inductive HdmaFrame (w : Wire σ) : List (List (BitVec 24 × BitVec 8)) → Wire σ → Prop
  | start {u : Wire σ} (run : initHdma w = some ((), u)) : HdmaFrame w [] u
  | line {outs : List (List (BitVec 24 × BitVec 8))} {out : List (BitVec 24 × BitVec 8)}
      {u u' : Wire σ} (before : HdmaFrame w outs u) (run : doHdma u = some ((), u'))
      (sent : u'.writes = u.writes ++ out) : HdmaFrame w (outs ++ [out]) u'
  | program {outs : List (List (BitVec 24 × BitVec 8))} {u u' : Wire σ} (before : HdmaFrame w outs u)
      (mem : SameMem keep u u')
      (inUse : ∀ i : Fin 8, u.dma[i].hdmaActive = true →
        u'.dma[i] = u.dma[i])
      (unused : ∀ i : Fin 8, u.dma[i].hdmaActive = false →
        u'.dma[i].hdmaActive = false) : HdmaFrame w outs u'

/-- What the channels, set up as in `d`, send on line `n`. -/
def lineSent (d : Dma) (tables : Fin 8 → List HdmaEntry) (n : Nat) : List (BitVec 24 × BitVec 8) :=
  (List.finRange 8).flatMap fun i =>
    d[i].sends 0 (rowAt ((tables i).flatMap HdmaEntry.lines) n)

section Run

variable {keep} {w u w' : Wire σ} {tables : Fin 8 → List HdmaEntry}

theorem AtLine.sameMem {c₀ c : DmaChannel} {lines : List (Option (List (BitVec 8)))}
    {n : Nat} (hmem : SameMem keep w w') (h : AtLine keep c₀ lines n w c) :
    AtLine keep c₀ lines n w' c := ⟨h.active, h.off, h.setup, hmem.plays h.plays⟩

theorem doHdma_line {n : Nat} (h : ∀ i : Fin 8,
    AtLine keep w.dma[i] ((tables i).flatMap HdmaEntry.lines) n u u.dma[i]) :
    ∃ u', doHdma u = some ((), u') ∧ u'.writes = u.writes ++ lineSent w.dma tables n ∧ ∀ i : Fin 8,
      AtLine keep w.dma[i] ((tables i).flatMap HdmaEntry.lines) (n + 1) u'
        u'.dma[i] := by
  obtain ⟨u', hrun, -, hwrites, hall, -⟩ := forM_channels
    (P := fun i => AtLine keep w.dma[i] ((tables i).flatMap HdmaEntry.lines) n)
    (Q := fun i => AtLine keep w.dma[i] ((tables i).flatMap HdmaEntry.lines) (n + 1))
    (fun _ _ _ _ hmem hi => hi.sameMem hmem) (fun _ _ _ _ hmem hi => hi.sameMem hmem)
    (fun i _ hi => AtLine.next rfl hi) (List.nodup_finRange 8) (w := u) fun i _ => h i
  exact ⟨u', hrun, hwrites, fun i => hall i (List.mem_finRange i)⟩

theorem initHdma_line (hprog : ∀ i : Fin 8, Programmed keep w w.dma[i] (tables i)) :
    ∃ u, initHdma w = some ((), u) ∧ ∀ i : Fin 8,
      AtLine keep w.dma[i] ((tables i).flatMap HdmaEntry.lines) 0 u u.dma[i] := by
  obtain ⟨u, hrun, -, -, hall, -⟩ := forM_channels
    (P := fun i w' c => c = w.dma[i] ∧ Programmed keep w' c (tables i))
    (Q := fun i => AtLine keep w.dma[i] ((tables i).flatMap HdmaEntry.lines) 0)
    (fun _ _ _ _ hmem hi => ⟨hi.1, hmem.programmed hi.2⟩) (fun _ _ _ _ hmem hi => hi.sameMem hmem)
    (fun i w' hi => hi.1 ▸ initHdmaChannel_plays rfl hi.2) (List.nodup_finRange 8) (w := w)
    fun i _ => ⟨rfl, hprog i⟩
  exact ⟨u, hrun, fun i => hall i (List.mem_finRange i)⟩

/-- However many lines have run. -/
theorem hdmaFrame_atLine {outs : List (List (BitVec 24 × BitVec 8))}
    (hprog : ∀ i : Fin 8, Programmed keep w w.dma[i] (tables i)) (h : HdmaFrame keep w outs u) :
    outs = (List.range outs.length).map (lineSent w.dma tables) ∧ ∀ i : Fin 8,
      AtLine keep w.dma[i] ((tables i).flatMap HdmaEntry.lines) outs.length u
        u.dma[i] := by
  induction h with
  | start run =>
    obtain ⟨u', hrun, hall⟩ := initHdma_line hprog
    cases hrun.symm.trans run
    exact ⟨rfl, hall⟩
  | @line outs out u u' before run sent ih =>
    obtain ⟨houts, hall⟩ := ih
    obtain ⟨v, hrun, hwrites, hnext⟩ := doHdma_line hall
    cases hrun.symm.trans run
    have hout : out = lineSent w.dma tables outs.length :=
      List.append_cancel_left (sent.symm.trans hwrites)
    rw [List.length_append, List.length_singleton, List.range_succ, List.map_append, ← houts, hout]
    exact ⟨rfl, hnext⟩
  | @program outs u u' before mem inUse unused ih =>
    refine ⟨ih.1, fun i => ?_⟩
    have hi := (ih.2 i).sameMem mem
    cases hon : u.dma[i].hdmaActive with
    | true =>
      rw [inUse i hon]
      exact hi
    | false =>
      have hoff := unused i hon
      have hlines := hi.off (hi.active.symm.trans hon)
      refine ⟨hoff.trans (hon.symm.trans hi.active), hi.off, fun hset => ?_, ?_⟩
      · exact absurd (hset.symm.trans (hi.active.symm.trans hon)) nofun
      · rw [hlines, List.drop_nil]
        refine .done ?_
        rw [DmaChannel.inUse, hoff]
        rfl

end Run

/-! Two channels: a direct table for $2122, and an indirect one for $2126 and $2127. -/

def cartridge : Set (BitVec 24) := { a | 0xC0 ≤ bank a }

theorem port_sink (x : BitVec 8) : Sink PortBoard cartridge (bBus x) := by
  have hdecode : ∀ x : BitVec 8, decodeAddr (bBus x) = .hw (low (bBus x)) := by decide
  intro v w
  refine ⟨{ w.bus with hw := { w.bus.hw with port := v } }, ?_, rfl, fun _ _ => rfl⟩
  unfold busWrite
  rw [hdecode x]
  rfl

def colourChannel : DmaChannel :=
  { DmaChannel.reset with
    bAdr := 0x22, aBank := 0xC0, aAdr := 0, mode := 0, indirect := false, fromB := false,
    hdmaActive := true }

def windowChannel : DmaChannel :=
  { DmaChannel.reset with
    bAdr := 0x26, aBank := 0xC0, indBank := 0xC0, aAdr := 6, mode := 1, indirect := true,
    fromB := false, hdmaActive := true }

def hdmaStart : Wire PortBoard :=
  portWire ((dmaReset.update (dmaIndex 0x4300) fun _ => colourChannel).update (dmaIndex 0x4310)
    fun _ => windowChannel)

def hdmaTables (i : Fin 8) : List HdmaEntry :=
  if i = dmaIndex 0x4300 then [.once 2 [0x0F], .every [[1], [2]]]
  else if i = dmaIndex 0x4310 then [.once 1 [7, 9]] else []

instance cartridgeDecidable : DecidablePred (· ∈ cartridge) :=
  fun a => inferInstanceAs (Decidable (0xC0 ≤ bank a))

theorem colourChannel_programmed :
    Programmed cartridge hdmaStart colourChannel [.once 2 [0x0F], .every [[1], [2]]] := by
  refine .on rfl ?_ ?_ ⟨rfl, fun _ _ => port_sink _⟩
  · refine List.forall_mem_cons.mpr ⟨⟨by decide, by decide, rfl⟩, ?_⟩
    exact List.forall_mem_singleton.mpr ⟨by decide, by decide, by decide⟩
  · refine (if_neg nofun).mpr ⟨by decide, (if_neg nofun).mpr ⟨by decide, ?_⟩⟩
    exact (if_neg nofun).mpr (by decide)

theorem windowChannel_programmed :
    Programmed cartridge hdmaStart windowChannel [.once 1 [7, 9]] := by
  refine .on rfl ?_ ?_ ⟨rfl, fun _ _ => port_sink _⟩
  · exact List.forall_mem_singleton.mpr ⟨by decide, by decide, rfl⟩
  · refine (if_pos rfl).mpr ⟨0x0C, 0, by decide, by decide, ?_⟩
    exact (if_pos rfl).mpr ⟨0, 0, by decide⟩

theorem hdmaStart_programmed (i : Fin 8) :
    Programmed cartridge hdmaStart hdmaStart.dma[i] (hdmaTables i) := by
  have hoff : ∀ i : Fin 8, i ≠ dmaIndex 0x4300 → i ≠ dmaIndex 0x4310 → hdmaStart.dma[i].hdmaActive = false := by decide
  unfold hdmaTables
  by_cases h₀ : i = dmaIndex 0x4300
  · subst h₀
    exact colourChannel_programmed
  · rw [if_neg h₀]
    by_cases h₁ : i = dmaIndex 0x4310
    · subst h₁
      exact windowChannel_programmed
    · rw [if_neg h₁]
      exact .off (hoff i h₀ h₁)

end CtRecomp
