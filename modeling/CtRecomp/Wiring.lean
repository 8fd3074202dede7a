import CtRecomp.WramJournal

namespace CtRecomp

open Loop UndoLog

/-! The frame hook, and the memory it sees: as of the frame's edge, WRAM writes the
instruction made after it rolled back meanwhile. -/

variable {ε : Type}

/-- What there is behind the bus besides WRAM. A device call makes bus accesses of its own;
the frame hook writes nothing. -/
structure Peripherals (ε : Type) where
  call : DeviceCall → Clock → Regs → WramBus → ε → Except String (List BusAccess × Regs × ε)
  frameHook : Clock → (BitVec 17 → BitVec 8) → ε → ε
  hdmaEnabled : ε → Bool
  hdmaCost : WramBus → ε → Nat
  hdmaInitCost : WramBus → ε → Nat
  hasFrameHook : Bool
  resetHook : Nat → WramBus → ε → Bool
  dmaCount8 : Bool

/-- A call of the frame hook: the bus before it, the memory it saw, the memory after. -/
structure HookCall where
  edge : Nat
  bus : WramBus
  seen : BitVec 17 → BitVec 8
  left : BitVec 17 → BitVec 8

structure Wired (ε : Type) where
  bus : WramBus
  rest : ε
  -- not in sched.c: the frame hook's calls so far
  hookCalls : List HookCall

/-- The entries `edge_hook` undoes and redoes. -/
def WramBus.undone (undoFrom : Option Nat) (w : WramBus) : List JournalEntry :=
  undoFrom.elim [] w.rolledBack

def WramBus.seen (undoFrom : Option Nat) (w : WramBus) : BitVec 17 → BitVec 8 :=
  undo (w.undone undoFrom) w.wram

def WramBus.hooked (undoFrom : Option Nat) (w : WramBus) : WramBus :=
  { w with
    wram := redo (w.undone undoFrom) (w.seen undoFrom)
    stores := w.stores ++ (w.undone undoFrom).map fun e => ⟨e.key, e.new, ⟨.redo, 0⟩⟩ }

def Wired.hookCall (undoFrom : Option Nat) (clk : Clock) (d : Wired ε) : HookCall :=
  ⟨clk.lineStart, d.bus, d.bus.seen undoFrom, (d.bus.hooked undoFrom).wram⟩

def Wired.edgeHook (P : Peripherals ε) (undoFrom : Option Nat) (clk : Clock) (d : Wired ε) :
    Wired ε where
  bus := d.bus.hooked undoFrom
  rest := P.frameHook clk (d.bus.seen undoFrom) d.rest
  hookCalls := d.hookCalls ++ [d.hookCall undoFrom clk]

def Wired.call (P : Peripherals ε) (c : DeviceCall) (clk : Clock) (regs : Regs) (d : Wired ε) :
    Except String (Regs × Wired ε) := do
  let (accesses, regs, rest) ← P.call c clk regs d.bus d.rest
  pure (regs, { d with bus := d.bus.accesses .hdma accesses, rest })

def wiredDevices (P : Peripherals ε) : Devices (Wired ε) where
  call
    | .edgeHook undoFrom, clk, regs, d => .ok (regs, d.edgeHook P undoFrom clk)
    | c, clk, regs, d => d.call P c clk regs
  hdmaEnabled d := P.hdmaEnabled d.rest
  hdmaCost d := P.hdmaCost d.bus d.rest
  hdmaInitCost d := P.hdmaInitCost d.bus d.rest
  hasFrameHook := P.hasFrameHook
  resetHook frames d := P.resetHook frames d.bus d.rest
  dmaCount8 := P.dmaCount8

end CtRecomp
