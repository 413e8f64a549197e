import Mathlib.Logic.Function.Basic
import SampleDB.Blocks

/-!
The lock table and the concurrency managers that share it. A manager enters a block
in its own map before the lock table grants the lock, and the entry stays when the
request ends in the timeout exception. Calls of different managers interleave: a
request that has to wait, and each `unlock` of a release, is a step of its own.
-/
namespace SampleDB.Locking

open Blocks

/-- The value of a block: -1 exclusive, otherwise the number of shared locks. A block that
is not in the map has the value 0. -/
abbrev LockTable := BlockId → ℤ

namespace LockTable

def hasXLock (table : LockTable) (blk : BlockId) : Bool := table blk < 0

def hasOtherSLocks (table : LockTable) (blk : BlockId) : Bool := table blk > 1

def sLock (table : LockTable) (blk : BlockId) : LockTable :=
  Function.update table blk (table blk + 1)

def xLock (table : LockTable) (blk : BlockId) : LockTable := Function.update table blk (-1)

def unlock (table : LockTable) (blk : BlockId) : LockTable :=
  if table blk > 1 then Function.update table blk (table blk - 1)
  else Function.update table blk 0

end LockTable

/-- The strings `"S"` and `"X"`. -/
inductive LockType
  | S
  | X
  deriving DecidableEq, Repr

/-- Where a call of a manager stands: it waits in `LockTable::sLock`, called by `xLock` or
not, or in `LockTable::xLock`, or it has these blocks left to unlock. -/
inductive Pc
  | idle
  | sWait (blk : BlockId) (inXLock : Bool)
  | xWait (blk : BlockId)
  | releasing (rest : List BlockId)
  deriving DecidableEq

/-- `held` is not in the source. It records the locks whose requests have returned and that
are not unlocked yet. -/
structure ConcurrencyMgr where
  locks : List (BlockId × LockType)
  pc : Pc
  held : BlockId → Option LockType

namespace ConcurrencyMgr

def new : ConcurrencyMgr := ⟨[], .idle, fun _ => none⟩

def find (mgr : ConcurrencyMgr) (blk : BlockId) : Option LockType := mgr.locks.lookup blk

def setLock (mgr : ConcurrencyMgr) (blk : BlockId) (t : LockType) : ConcurrencyMgr :=
  { mgr with locks := (blk, t) :: mgr.locks.filter (fun e => e.1 ≠ blk) }

/-- A shared request returns also where the exclusive lock is held. -/
def returned (mgr : ConcurrencyMgr) (blk : BlockId) (t : LockType) : ConcurrencyMgr :=
  let t' := if t = .S ∧ mgr.held blk = some .X then .X else t
  { mgr with held := Function.update mgr.held blk (some t') }

def unlocked (mgr : ConcurrencyMgr) (blk : BlockId) : ConcurrencyMgr :=
  { mgr with held := Function.update mgr.held blk none }

def setPc (mgr : ConcurrencyMgr) (pc : Pc) : ConcurrencyMgr := { mgr with pc := pc }

end ConcurrencyMgr

structure LockState (M : Type) where
  table : LockTable
  mgrs : M → ConcurrencyMgr

/-- `granted` and `timeout` end the waiting of a request. A release unlocks the blocks of
the map one after another, here in any order, and clears the map at the end. -/
inductive LockLabel (M : Type)
  | sLock (m : M) (blk : BlockId)
  | xLock (m : M) (blk : BlockId)
  | granted (m : M)
  | timeout (m : M)
  | release (m : M)
  | unlock (m : M) (blk : BlockId)
  | clear (m : M)
  deriving DecidableEq

namespace LockState

variable {M : Type} [DecidableEq M]

def new : LockState M := ⟨fun _ => 0, fun _ => .new⟩

def setMgr (s : LockState M) (m : M) (mgr : ConcurrencyMgr) : LockState M :=
  { s with mgrs := Function.update s.mgrs m mgr }

/-- `ConcurrencyMgr::sLock` up to the waiting. -/
def sLock (s : LockState M) (m : M) (blk : BlockId) (inXLock : Bool) : LockState M :=
  s.setMgr m (((s.mgrs m).setLock blk .S).setPc (.sWait blk inXLock))

def xWait (s : LockState M) (m : M) (blk : BlockId) : LockState M :=
  s.setMgr m (((s.mgrs m).setLock blk .X).setPc (.xWait blk))

def step (s : LockState M) : LockLabel M → Option (LockState M)
  | .sLock m blk =>
      match (s.mgrs m).pc, (s.mgrs m).find blk with
      | .idle, none => some (s.sLock m blk false)
      | .idle, some _ => some (s.setMgr m ((s.mgrs m).returned blk .S))
      | _, _ => none
  | .xLock m blk =>
      match (s.mgrs m).pc, (s.mgrs m).find blk with
      | .idle, some .X => some (s.setMgr m ((s.mgrs m).returned blk .X))
      | .idle, none => some (s.sLock m blk true)
      | .idle, some .S => some (s.xWait m blk)
      | _, _ => none
  | .granted m =>
      match (s.mgrs m).pc with
      | .sWait blk inXLock =>
        if s.table.hasXLock blk then none
        else
          let mgr := ((s.mgrs m).returned blk .S).setPc .idle
          let s := { s with table := s.table.sLock blk }.setMgr m mgr
          some (if inXLock then s.xWait m blk else s)
      | .xWait blk =>
        if s.table.hasOtherSLocks blk then none
        else
          let mgr := ((s.mgrs m).returned blk .X).setPc .idle
          some ({ s with table := s.table.xLock blk }.setMgr m mgr)
      | _ => none
  | .timeout m =>
      match (s.mgrs m).pc with
      | .sWait blk _ =>
        if s.table.hasXLock blk then some (s.setMgr m ((s.mgrs m).setPc .idle)) else none
      | .xWait blk =>
        if s.table.hasOtherSLocks blk then some (s.setMgr m ((s.mgrs m).setPc .idle)) else none
      | _ => none
  | .release m =>
      match (s.mgrs m).pc with
      | .idle =>
        some (s.setMgr m ((s.mgrs m).setPc (.releasing ((s.mgrs m).locks.map Prod.fst))))
      | _ => none
  | .unlock m blk =>
      match (s.mgrs m).pc with
      | .releasing rest =>
        if blk ∈ rest then
          let mgr := ((s.mgrs m).unlocked blk).setPc (.releasing (rest.erase blk))
          some ({ s with table := s.table.unlock blk }.setMgr m mgr)
        else none
      | _ => none
  | .clear m =>
      match (s.mgrs m).pc with
      | .releasing [] => some (s.setMgr m { (s.mgrs m) with pc := .idle, locks := [] })
      | _ => none

end LockState

end SampleDB.Locking
