import CtRecomp.EmittedBlock

namespace CtRecomp

/-! Compiled code in the scheduler, step by step as the interpreter. -/

/-- A function as it was decoded and emitted. -/
structure EmittedFn.Sound (reg : Registry) (E : EmittedFn) : Prop where
  name : ∃ overlay, E.name = cName overlay E.fn.entry E.fn.state
  blocks : ∀ before b after, E.blocks = before ++ b :: after →
    b.Shaped reg.rom E.fn (after.map (·.i)).head? ∧ ∃ st nst, b.i.Met reg.rom E.fn st nst

/-- A place in a function of the program's. -/
structure BlockPlace.In (p : Generated) (a : BlockPlace) : Prop where
  fn : a.E ∈ p.rom
  split : ∃ before, a.E.blocks = before ++ a.b :: a.after

/-- The instruction of the block behind. -/
def BlockPlace.nxt (a : BlockPlace) : Option Insn := (a.after.map (·.i)).head?

/-- Control, with M and X as a block was compiled for. -/
def Control.Sound (p : Generated) (r : RegFile) : Control → Prop
  | .block a => a.In p ∧ InMode r a.b.i.key.2
  | .back | .exec _ => True

/-- What waits for a callee is what is left of its block. -/
def EmittedFrame.Sound (p : Generated) : EmittedFrame → Prop
  | .run a rest => a.In p ∧ a.b.i.mnemonic.fallsThrough = true ∧ a.b.i.Checked a.E.fn a.nxt rest
  | .call a back _ rest => a.In p ∧ a.b.i.mnemonic.fallsThrough = true ∧ back = a.b.i.back ∧
    a.b.i.Resumes a.E.fn a.nxt rest
  | .loop _ => True
  | .irq a before => a.In p ∧ InMode before.toRegFile a.b.i.key.2 ∧ before.pbpc = a.b.i.addr

structure EmittedMachine.Sound {σ : Type} (p : Generated) (M : EmittedMachine σ) : Prop where
  ranged : M.cpu.toRegFile.Ranged
  ctl : M.ctl.Sound p M.cpu.toRegFile
  frames : ∀ f ∈ M.frames, f.Sound p

section

variable {reg : Registry} {p : Generated} {a a' : BlockPlace} {fs fs' : List EmittedFrame}
  {c c' v : Cpu} {x : Exit} {ctl : Control}

/-! Where an exit leads. -/

theorem place_in {E : EmittedFn} (hE : E ∈ p.rom) {s0 : BitVec 16} {key : Key}
    (h : E.place s0 key = some a) : a.In p ∧ a.E = E ∧ a.b.i.key = key := by
  unfold EmittedFn.place at h
  have hsplit :=
    List.takeWhile_append_dropWhile (p := fun b : Block => b.i.key ≠ key) (l := E.blocks)
  have hhead := List.head?_dropWhile_not (fun b : Block => b.i.key ≠ key) E.blocks
  split at h
  next => cases h
  next b after hdrop =>
    cases h
    rw [hdrop] at hsplit hhead
    refine ⟨⟨hE, _, hsplit.symm⟩, rfl, ?_⟩
    simpa using hhead

theorem call_in {f : CName} {r : RegFile} (h : p.call f r = some a) :
    a.In p ∧ a.E.name = f ∧ a.b.i.addr = a.E.fn.entry ∧ InMode r a.b.i.key.2 := by
  obtain ⟨E, hfind, h⟩ := Option.bind_eq_some_iff.mp h
  have hE := List.mem_of_find?_eq_some hfind
  have hname : E.name = f := by simpa using List.find?_some hfind
  unfold EmittedFn.enter at h
  split at h
  next hmode =>
    obtain ⟨he, hm, hx⟩ := hmode
    obtain ⟨hin, haE, hkey⟩ := place_in hE h
    rw [haE, hkey]
    refine ⟨hin, hname, congrArg Prod.fst hkey, fun b hb => ?_, fun b hb => ?_, he⟩
    · exact Option.some.inj (hm.symm.trans hb)
    · exact Option.some.inj (hx.symm.trans hb)
  next => cases h

/-- Its name says where it is. -/
theorem entry_at (hp : ∀ E ∈ p.rom, E.Sound reg) {f : CName} {target : BitVec 24}
    (hf : f.IsAt target) (hin : a.In p) (hname : a.E.name = f) : a.E.fn.entry = target := by
  obtain ⟨overlay, hE⟩ := (hp _ hin.fn).name
  exact hf _ _ _ _ (hname.symm.trans hE)

theorem handOver_sound (s0 : BitVec 16) (hfs : ∀ f ∈ fs, f.Sound p) (r : RegFile) :
    (handOver s0 fs).1.Sound p r ∧ (handOver s0 fs).1.view c = c ∧
      ∀ f ∈ (handOver s0 fs).2, f.Sound p := by
  unfold handOver
  split
  · exact ⟨trivial, rfl, fun f hf => hfs f (List.mem_cons_of_mem _ hf)⟩
  · exact ⟨trivial, rfl, hfs⟩

/-- A block's exit leads on in the program. -/
theorem go_sound (hp : ∀ E ∈ p.rom, E.Sound reg) (hin : a.In p) (hfs : ∀ f ∈ fs, f.Sound p)
    (hlands : a.b.Lands a.E.fn a.nxt v c x) (hgo : x.go p a c.toRegFile fs = some (ctl, fs')) :
    ctl.Sound p c.toRegFile ∧ ctl.view c = v ∧ ∀ f ∈ fs', f.Sound p := by
  cases hlands with
  | @next i hnxt hv hmode =>
    unfold BlockPlace.nxt at hnxt
    rw [Exit.go] at hgo
    cases hafter : a.after with
    | nil =>
      rw [hafter] at hnxt
      cases hnxt
    | cons b after =>
      rw [hafter] at hnxt hgo
      cases hnxt
      cases hgo
      obtain ⟨before, hsplit⟩ := hin.split
      refine ⟨⟨⟨hin.fn, before ++ [a.b], ?_⟩, hmode⟩, hv.symm, hfs⟩
      rw [hsplit, hafter, List.append_assoc]
      rfl
  | again hv hmode =>
    cases hgo
    exact ⟨⟨hin, hmode⟩, hv.symm, hfs⟩
  | goto hv hmode =>
    obtain ⟨a', hplace, hgo⟩ := Option.map_eq_some_iff.mp hgo
    cases hgo
    obtain ⟨hin', -, hkey⟩ := place_in hin.fn hplace
    have haddr : a'.b.i.addr = _ := congrArg Prod.fst hkey
    refine ⟨⟨hin', hkey ▸ hmode⟩, ?_, hfs⟩
    rw [hv, ← haddr]
    rfl
  | call hf hv hfalls hrest =>
    obtain ⟨a', hcall, hgo⟩ := Option.map_eq_some_iff.mp hgo
    cases hgo
    obtain ⟨hin', hname, haddr, hmode⟩ := call_in hcall
    refine ⟨⟨hin', hmode⟩, ?_, List.forall_mem_cons.mpr ⟨⟨hin, hfalls, hrest⟩, hfs⟩⟩
    rw [hv, ← entry_at hp hf hin' hname, ← haddr]
    rfl
  | tail hf hv =>
    obtain ⟨a', hcall, hgo⟩ := Option.map_eq_some_iff.mp hgo
    cases hgo
    obtain ⟨hin', hname, haddr, hmode⟩ := call_in hcall
    refine ⟨⟨hin', hmode⟩, ?_, hfs⟩
    rw [hv, ← entry_at hp hf hin' hname, ← haddr]
    rfl
  | ret hv =>
    cases hgo
    exact ⟨trivial, hv.symm, hfs⟩
  | dispatch hv hfalls hrest =>
    cases hgo
    exact ⟨trivial, hv.symm, List.forall_mem_cons.mpr ⟨⟨hin, hfalls, rfl, hrest⟩, hfs⟩⟩
  | rest hv =>
    have hgo' : handOver a.s0 fs = (ctl, fs') := Option.some.inj hgo
    obtain ⟨hctl, hview, hfs'⟩ := handOver_sound (c := c) a.s0 hfs c.toRegFile
    rw [hgo'] at hctl hview hfs'
    exact ⟨hctl, hview.trans hv.symm, hfs'⟩

/-! Steps. -/

variable {σ : Type} [Board σ] {bus bus' : Bus σ} {M M' : EmittedMachine σ} {w : Wire σ}
  {d : Int}

theorem goOn_run {body : List Stmt} (h : a.goOn p body c w fs d = some M) :
    ∃ c' x w' ctl fs', runStmts body 0 c w = some ((c', x), w') ∧
      x.go p a c'.toRegFile fs = some (ctl, fs') ∧ M = ⟨c', w'.bus, ctl, fs', d⟩ := by
  obtain ⟨⟨⟨c', x⟩, w'⟩, hrun, h⟩ := Option.bind_eq_some_iff.mp h
  obtain ⟨⟨ctl, fs'⟩, hgo, h⟩ := Option.bind_eq_some_iff.mp h
  cases h
  exact ⟨c', x, w', ctl, fs', hrun, hgo, rfl⟩

theorem execute_ranged (hr : c.toRegFile.Ranged) (h : execute c bus = some (v, bus')) :
    v.toRegFile.Ranged := by
  unfold execute at h
  split at h
  next =>
    obtain ⟨⟨⟨n, e⟩, w'⟩, hstep, h⟩ := Option.map_eq_some_iff.mp h
    cases h
    exact interpStep_ranged hr systemHost _ _ _ hstep
  next => cases h

theorem interrupt_ranged {nmi : Bool} (hr : c.toRegFile.Ranged)
    (h : interrupt nmi c bus = some (v, bus')) : v.toRegFile.Ranged := by
  obtain ⟨⟨⟨cur, e⟩, w'⟩, henter, h⟩ := Option.map_eq_some_iff.mp h
  cases h
  exact interpInterrupt_ranged hr nmi _ _ _ henter

/-- An instruction that was interrupted goes on in the mode it is compiled for. -/
theorem interrupted_mode {before : Cpu} {k : Mode} (hsame : Interrupted before c)
    (h : InMode before.toRegFile k) : InMode c.toRegFile k := by
  obtain ⟨-, -, -, hm, hx, he⟩ := hsame
  exact ⟨fun b hb => hm.trans (h.m b hb), fun b hb => hx.trans (h.x b hb), he.trans h.native⟩

theorem interrupted_pbpc {before : Cpu} (hsame : Interrupted before c) : c.pbpc = before.pbpc := by
  unfold Cpu.pbpc
  rw [hsame.1, hsame.2.1]

/-- What is left of a call's block, with the callee back at its return address. -/
theorem back_sound (hp : ∀ E ∈ p.rom, E.Sound reg) (hin : a.In p)
    (hfalls : a.b.i.mnemonic.fallsThrough = true) {rest : List Stmt} (hback : a.ComesBack c)
    (hrest : a.b.i.Checked a.E.fn a.nxt rest ∨
      a.b.i.GoesOn a.E.fn a.nxt rest ∧ c.pbpc = a.b.i.back)
    (hr : c.toRegFile.Ranged) (hfs : ∀ f ∈ fs, f.Sound p)
    (h : a.goOn p rest c (startWire bus 0) fs d = some M) : M.Sound p ∧ M.view = c ∧ M.bus = bus := by
  obtain ⟨c', x, w', ctl, fs', hrun, hgo, rfl⟩ := goOn_run h
  obtain ⟨before, hsplit⟩ := hin.split
  obtain ⟨-, st, nst, hmet⟩ := (hp _ hin.fn).blocks before a.b a.after hsplit
  have hd := decodeInsn_decoded hmet.decoded
  have hlands : w' = startWire bus 0 ∧ c' = c ∧ a.b.Lands a.E.fn a.nxt c c' x := by
    rcases hrest with hchecked | ⟨hgoes, hpc⟩
    · exact checked_lands hchecked hd hfalls hback.bank hback.mode hback.native hrun
    · have hv : c = c.setPbpc a.b.i.nextAddr := by
        rw [← hd.back_eq, ← hpc, Cpu.setPbpc_pbpc]
      exact goesOn_lands hgoes (fun hexits => ⟨hfalls, hback.mode hexits⟩) hback.native hv
        (fun _ => rfl) hrun
  obtain ⟨rfl, rfl, hlands⟩ := hlands
  obtain ⟨hctl, hview, hfs'⟩ := go_sound hp hin hfs hlands hgo
  exact ⟨⟨hr, hctl, hfs'⟩, hview, rfl⟩

theorem executes_one (move : Move) (c : Cpu) (bus : Bus σ) :
    executes [move] c bus = move.run c bus := bind_pure (move.run c bus)

theorem executes_append {moves more : List Move} {c c' : Cpu} {b b' : Bus σ}
    {r : Option (Cpu × Bus σ)} (h : executes moves c b = some (c', b'))
    (h' : executes more c' b' = r) : executes (moves ++ more) c b = r := by
  unfold executes at h ⊢
  rw [List.foldlM_append, h]
  exact h'

/-- A step does what the interpreter does. -/
theorem step_sound (hp : ∀ E ∈ p.rom, E.Sound reg) (hrom : reg.rom.OnBus σ) (hM : M.Sound p)
    (hregular : M.Regular) {moves : List Move} (h : M.Step p moves M') :
    M'.Sound p ∧ executes moves M.view M.bus = some (M'.view, M'.bus) := by
  obtain ⟨hr, hctl, hfs⟩ := hM
  cases h with
  | @block a c bus fs d M h =>
    obtain ⟨hin, hmode⟩ := hctl
    obtain ⟨c', x, w', ctl, fs', hrun, hgo, rfl⟩ := goOn_run h
    obtain ⟨before, hsplit⟩ := hin.split
    obtain ⟨hshaped, st, nst, hmet⟩ := (hp _ hin.fn).blocks before a.b a.after hsplit
    have hpc : (c.setPbpc a.b.i.addr).pbpc = a.b.i.addr := c.pbpc_setPbpc _
    obtain ⟨v, hexec, hlands⟩ := block_lands hmet hshaped hrom hpc hmode hr hregular hrun
    obtain ⟨hctl', hview, hfs'⟩ := go_sound hp hin hfs hlands hgo
    have hr' := execute_ranged (c := c.setPbpc a.b.i.addr) hr hexec
    rw [hlands.regs] at hr'
    refine ⟨⟨hr', hctl', hfs'⟩, ?_⟩
    have hview' : EmittedMachine.view ⟨c', w'.bus, ctl, fs', rtiDepth a.b.i.opcode d⟩ = v := hview
    rw [executes_one, hview']
    exact hexec
  | @interrupted a nmi c c' bus bus' fs d h =>
    obtain ⟨hin, hmode⟩ := hctl
    have hpc : (c.setPbpc a.b.i.addr).pbpc = a.b.i.addr := c.pbpc_setPbpc _
    have hr' := interrupt_ranged (c := c.setPbpc a.b.i.addr) hr h
    refine ⟨⟨hr', trivial, List.forall_mem_cons.mpr ⟨⟨hin, hmode, hpc⟩, hfs⟩⟩, ?_⟩
    rw [executes_one]
    exact h
  | @returned a rest c bus fs d M h =>
    obtain ⟨⟨hin, hfalls, hchecked⟩, hothers⟩ := List.forall_mem_cons.mp hfs
    obtain ⟨hM', hview, hbus⟩ := back_sound hp hin hfalls hregular (.inl hchecked) hr hothers h
    refine ⟨hM', ?_⟩
    rw [hview, hbus]
    rfl
  | loop => exact ⟨⟨hr, trivial, (List.forall_mem_cons.mp hfs).2⟩, rfl⟩
  | insn _ _ hexec =>
    refine ⟨⟨execute_ranged hr hexec, trivial, hfs⟩, ?_⟩
    rw [executes_one]
    exact hexec
  | taken _ h =>
    refine ⟨⟨interrupt_ranged hr h, trivial, hfs⟩, ?_⟩
    rw [executes_one]
    exact h
  | @native u f a c bus fs d _ hcall hat =>
    obtain ⟨hin, hname, haddr, hmode⟩ := call_in hcall
    refine ⟨⟨hr, ⟨hin, hmode⟩, List.forall_mem_cons.mpr ⟨trivial, hfs⟩⟩, ?_⟩
    have hview : c.setPbpc a.b.i.addr = c := by rw [haddr, hat, Cpu.setPbpc_pbpc]
    change some (c, bus) = some (c.setPbpc a.b.i.addr, bus)
    rw [hview]
  | rested => exact ⟨⟨hr, trivial, hfs⟩, rfl⟩
  | @came s a back mx rest c bus fs d M _ hback h =>
    obtain ⟨⟨hin, hfalls, rfl, hresumes⟩, hothers⟩ := List.forall_mem_cons.mp hfs
    have hrest : a.b.i.Checked a.E.fn a.nxt rest ∨
        a.b.i.GoesOn a.E.fn a.nxt rest ∧ c.pbpc = a.b.i.back := by
      rcases hresumes with hgoes | hchecked
      · exact .inr ⟨hgoes, hback.2.1⟩
      · exact .inl hchecked
    obtain ⟨hM', hview, hbus⟩ := back_sound hp hin hfalls (hregular hback) hrest hr hothers h
    refine ⟨hM', ?_⟩
    rw [hview, hbus]
    rfl
  | @missed s a back mx rest c bus fs d =>
    obtain ⟨hctl', hview, hfs'⟩ := handOver_sound (c := c) a.s0 (List.forall_mem_cons.mp hfs).2
      c.toRegFile
    have hview' : EmittedMachine.view ⟨c, bus, (handOver a.s0 fs).1, (handOver a.s0 fs).2, d⟩ = c :=
      hview
    refine ⟨⟨hr, hctl', hfs'⟩, ?_⟩
    rw [hview']
    rfl
  | @resumed d' a before c bus fs d _ hsame =>
    obtain ⟨⟨hin, hmode, hpc⟩, hothers⟩ := List.forall_mem_cons.mp hfs
    refine ⟨⟨hr, ⟨hin, interrupted_mode hsame hmode⟩, hothers⟩, ?_⟩
    have hview : c.setPbpc a.b.i.addr = c := by
      rw [← hpc, ← interrupted_pbpc hsame, Cpu.setPbpc_pbpc]
    change some (c, bus) = some (c.setPbpc a.b.i.addr, bus)
    rw [hview]

/-- A run does what the interpreter does. -/
theorem run_sound (hp : ∀ E ∈ p.rom, E.Sound reg) (hrom : reg.rom.OnBus σ) (hM : M.Sound p)
    {moves : List Move} (h : M.Run p moves M') :
    M'.Sound p ∧ executes moves M.view M.bus = some (M'.view, M'.bus) := by
  induction h with
  | start => exact ⟨hM, rfl⟩
  | step hrun hregular hstep ih =>
    obtain ⟨hM', hexec⟩ := ih
    obtain ⟨hM'', hexec'⟩ := step_sound hp hrom hM' hregular hstep
    exact ⟨hM'', executes_append hexec hexec'⟩

end

end CtRecomp
