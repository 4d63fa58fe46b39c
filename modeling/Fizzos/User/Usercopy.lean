import Fizzos.Kernel.Paging

/-!
# `Fizzos.User.Usercopy`: system calls that store into user memory

`copy_to_user` of `user/usercopy.c` is a `memcpy` and nothing else. `sys_getcwd` calls it on the
buffer of the caller, and `sys_read` calls `file_read`, which calls `memcpy` on this buffer for each
sector. So both of them store one byte after the other, in supervisor mode and through the page
directory of the caller.

The paging unit lets a supervisor-mode store pass a read-only entry when `CR0.WP` is clear. The
loader never sets this bit (`loaderCr0`). A store to a page that is not present is a page fault of
the caller, and the copy goes on when the page is there.

`usercopySystem` is `cowSystem` with these calls. A call copies any number of bytes to any place of
user memory, and the bytes are any bytes: they come from a file or from the path of a directory.
Other processes run between two bytes. `eager` gets a byte for the caller only.

Left out: a buffer outside of user memory, which no call checks, and how many bytes there are to
copy.
-/

set_option autoImplicit false

namespace Fizzos.User

open Fizzos.Kernel
open Fizzos.Support

/-- CR0 after a reset. -/
def CR0_RESET : BitVec 32 := 0x60000010

def CR0_PE : BitVec 32 := 0x00000001
def CR0_WP : BitVec 32 := 0x00010000
def CR0_PG : BitVec 32 := 0x80000000

/-- The loader sets the bit for the protected mode, and later the bit for paging. -/
def loaderCr0 : BitVec 32 := CR0_RESET ||| CR0_PE ||| CR0_PG

/-- The paging unit lets a store in supervisor mode pass. -/
def SupervisorPermits (cr0 : BitVec 32) (vm : Vm) (pgDir addr : Nat) : Prop :=
  ∃ e ∈ vm.walk pgDir addr,
    cr0 &&& CR0_WP ≠ 0 → e.1 &&& PG_RWE ≠ 0 ∧ e.2 &&& PG_RWE ≠ 0

/-- With the CR0 of the loader a store passes each entry that is present. -/
theorem supervisorPermits_loader (vm : Vm) (pgDir addr : Nat) :
    SupervisorPermits loaderCr0 vm pgDir addr ↔ (vm.walk pgDir addr).isSome := by
  have hclear : ¬loaderCr0 &&& CR0_WP ≠ 0 := by decide
  constructor
  · rintro ⟨e, he, -⟩
    rw [he]
    rfl
  · intro hsome
    obtain ⟨e, he⟩ := Option.isSome_iff_exists.mp hsome
    exact ⟨e, he, fun hset => absurd hset hclear⟩

/-- The processes, and for each one where the next byte of its call goes, and how many there
are. -/
structure UsercopyState where
  cow : CowState
  copy : Nat → Option (Nat × Nat)

inductive UsercopyAct where
  | cow (a : CowAct)
  /-- `sys_read` or `sys_getcwd` starts to copy `n` bytes to `dest`. -/
  | call (p dest n : Nat)
  /-- One byte of `memcpy`. -/
  | copyByte (p : Nat) (byte : UInt8)

/-- The process that takes a step. -/
def cowProcess : CowAct → Option Nat
  | .fork p _ => some p
  | .write p _ _ => some p
  | .protectFault p _ _ => some p
  | .notPresent p _ _ => some p
  | .mapped p _ => some p
  | .pages _ => none
  | .store _ _ => none

/-- The process that takes a step. -/
def UsercopyAct.process : UsercopyAct → Option Nat
  | .cow a => cowProcess a
  | .call p _ _ => some p
  | .copyByte p _ => some p

namespace UsercopyState

/-- A call has `n` bytes left for `dest`. -/
def setCopy (s : UsercopyState) (p dest n : Nat) : UsercopyState :=
  { s with copy := Function.update s.copy p (if n = 0 then none else some (dest, n)) }

/-- In the middle of a call, a process takes page faults at the next byte and nothing else. -/
def Allows (s : UsercopyState) : CowAct → Prop
  | .fork p _ => s.copy p = none
  | .write p _ _ => s.copy p = none
  | .protectFault p _ _ => s.copy p = none
  | .notPresent p addr _ => ∀ c ∈ s.copy p, c.1 = addr
  | .mapped _ _ => True
  | .pages _ => True
  | .store _ _ => True

def Enabled (s : UsercopyState) : UsercopyAct → Prop
  | .cow a => s.cow.Enabled a ∧ s.Allows a
  | .call p dest n => s.cow.Runs p ∧ s.copy p = none ∧ dest + n ≤ TASK_SIZE
  | .copyByte p _ => s.cow.Runs p ∧ ∃ c ∈ s.copy p, c.1 < TASK_SIZE ∧
      SupervisorPermits loaderCr0 s.cow.vm (s.cow.dir p) c.1

def next (s : UsercopyState) : UsercopyAct → Except Halt UsercopyState
  | .cow a => do
      let cow ← s.cow.next a
      pure { s with cow }
  | .call p dest n => pure (s.setCopy p dest n)
  | .copyByte p byte => do
      let (dest, n) ← deref (s.copy p)
      -- the store of `next` is the one of a user write, without the check of the paging unit
      let cow ← s.cow.next (.write p dest byte)
      pure { s.setCopy p (dest + 1) (n - 1) with cow }

end UsercopyState

/-- Any run of processes that descend from one by fork, with system calls that store into the
memory of their callers. -/
def usercopySystem (totalMemSize : Nat) : System UsercopyState UsercopyAct Halt where
  init s := CowState.Init totalMemSize s.cow ∧ s.copy = fun _ => none
  enabled := UsercopyState.Enabled
  next := UsercopyState.next

end Fizzos.User
