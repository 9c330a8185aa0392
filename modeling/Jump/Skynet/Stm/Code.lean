import Jump.Core.Threads
import Mathlib.Data.List.Basic

/-! # An object that one service writes and others read

`lua-stm.c`. A step of a thread is one access to the object or to a copy. Taking the lock of
`rwlock.h` is one step as well, which is there while the lock is free for it.
-/

namespace Jump.Skynet.Stm

open Jump.Core.Threads

/-- `struct stm_copy`; its message is freed with it. -/
structure Copy where
  reference : Int
  msg : List UInt8
  freed : Bool
deriving DecidableEq

/-- `struct stm_object`, with who has its lock. -/
structure Object where
  readers : Nat
  writing : Bool
  reference : Int
  copy : Option Nat
  freed : Bool
deriving DecidableEq

/-- What the services share; a copy has its place in the list for its address. -/
structure Shared where
  obj : Object
  copies : List Copy
deriving DecidableEq

/-- Where `stm_releasecopy` returns to. -/
inductive After where
  /-- `lupdate` -/
  | writer
  /-- `stm_release` -/
  | clear
  /-- `lread`, without an update and with one -/
  | reader (last : Option Nat)
  | read (ret : Option Nat)
  /-- `ldeletereader` -/
  | gone
deriving DecidableEq

/-- Where a thread stands, before its next access; `last` is the `lastcopy` of a reader. -/
inductive Pc where
  /-- a service with the writer, in none of the functions -/
  | writer
  /-- `stm_grab` -/
  | grabLock
  | grabAdd
  | grabUnlock
  /-- `stm_update` -/
  | updateLock (copy : Nat)
  | updateSwap (copy : Nat)
  | updateUnlock (oldcopy : Option Nat)
  /-- `stm_release` -/
  | releaseAssert
  | releaseLock
  | releaseCopy
  | clear
  | releaseSub
  | releaseUnlock
  | releaseFree
  /-- a service with a reader, in none of the functions -/
  | reader (last : Option Nat)
  /-- `stm_copy` -/
  | copyLock (last : Option Nat)
  | copyLoad (last : Option Nat)
  | copyAdd (last : Option Nat) (ret : Nat)
  | copyUnlock (last ret : Option Nat)
  /-- `lread`, with an update -/
  | hand (copy : Nat)
  /-- `stm_releasereader` -/
  | deleteLock (last : Option Nat)
  | deleteSub (last : Option Nat)
  | deleteUnlock (last : Option Nat)
  | deleteFree (last : Option Nat)
  /-- `stm_releasecopy` -/
  | sub (copy : Nat) (after : After)
  | free (copy : Nat) (after : After)
  | gone
deriving DecidableEq

def After.pc : After → Pc
  | .writer => .writer
  | .clear => .clear
  | .reader last => .reader last
  | .read none => .reader none
  | .read (some c) => .hand c
  | .gone => .gone

/-- The call of `stm_releasecopy`. -/
def releasecopy (copy : Option Nat) (after : After) : Pc :=
  match copy with
  | none => after.pc
  | some c => .sub c after

/-- A service, with the messages that `lread` gave to its function. -/
structure Thread where
  pc : Pc
  seen : List (List UInt8)
deriving DecidableEq

namespace Shared

variable (s : Shared)

def rlock : Shared := { s with obj := { s.obj with readers := s.obj.readers + 1 } }

def runlock : Shared := { s with obj := { s.obj with readers := s.obj.readers - 1 } }

def wlock : Shared := { s with obj := { s.obj with writing := true } }

def wunlock : Shared := { s with obj := { s.obj with writing := false } }

def addReference (n : Int) : Shared :=
  { s with obj := { s.obj with reference := s.obj.reference + n } }

def setCopy (copy : Option Nat) : Shared := { s with obj := { s.obj with copy := copy } }

def freeObject : Shared := { s with obj := { s.obj with freed := true } }

/-- `stm_newcopy` -/
def newcopy (msg : List UInt8) : Shared := { s with copies := s.copies ++ [⟨1, msg, false⟩] }

def addCopy (c : Nat) (n : Int) : Shared :=
  { s with copies := s.copies.modify c fun k => { k with reference := k.reference + n } }

def freeCopy (c : Nat) : Shared :=
  { s with copies := s.copies.modify c fun k => { k with freed := true } }

/-- The counter of a copy. -/
def reference (c : Nat) : Int :=
  match s.copies[c]? with
  | none => 0
  | some k => k.reference

/-- A copy is not there: it was freed, or is not made yet. -/
def dead (c : Nat) : Bool :=
  match s.copies[c]? with
  | none => true
  | some k => k.freed

/-- The messages in the order in which they were written. -/
def written : List (List UInt8) := s.copies.map Copy.msg

end Shared

/-- A step of a thread, and the reader that another service makes of what `lcopy` returns. -/
inductive Step : Shared → Thread → Shared → Thread → List Thread → Prop
  | lcopy {s w} : Step s ⟨.writer, w⟩ s ⟨.grabLock, w⟩ []
  | grabLock {s w} (hfree : s.obj.writing = false) :
      Step s ⟨.grabLock, w⟩ s.rlock ⟨.grabAdd, w⟩ []
  | grabAdd {s w} : Step s ⟨.grabAdd, w⟩ (s.addReference 1) ⟨.grabUnlock, w⟩ []
  | grabUnlock {s w} :
      Step s ⟨.grabUnlock, w⟩ s.runlock ⟨.writer, w⟩ [⟨.reader none, []⟩]
  | lupdate {s w} (msg : List UInt8) :
      Step s ⟨.writer, w⟩ (s.newcopy msg) ⟨.updateLock s.copies.length, w⟩ []
  | updateLock {s w c} (hfree : s.obj.writing = false) (hnone : s.obj.readers = 0) :
      Step s ⟨.updateLock c, w⟩ s.wlock ⟨.updateSwap c, w⟩ []
  | updateSwap {s w c} :
      Step s ⟨.updateSwap c, w⟩ (s.setCopy (some c)) ⟨.updateUnlock s.obj.copy, w⟩ []
  | updateUnlock {s w old} :
      Step s ⟨.updateUnlock old, w⟩ s.wunlock ⟨releasecopy old .writer, w⟩ []
  | ldeletewriter {s w} : Step s ⟨.writer, w⟩ s ⟨.releaseAssert, w⟩ []
  | releaseAssert {s w} : Step s ⟨.releaseAssert, w⟩ s ⟨.releaseLock, w⟩ []
  | releaseLock {s w} (hfree : s.obj.writing = false) (hnone : s.obj.readers = 0) :
      Step s ⟨.releaseLock, w⟩ s.wlock ⟨.releaseCopy, w⟩ []
  | releaseCopy {s w} : Step s ⟨.releaseCopy, w⟩ s ⟨releasecopy s.obj.copy .clear, w⟩ []
  | clear {s w} : Step s ⟨.clear, w⟩ (s.setCopy none) ⟨.releaseSub, w⟩ []
  | releaseSub {s w} :
      Step s ⟨.releaseSub, w⟩ (s.addReference (-1))
        ⟨if s.obj.reference + -1 > 0 then .releaseUnlock else .releaseFree, w⟩ []
  | releaseUnlock {s w} : Step s ⟨.releaseUnlock, w⟩ s.wunlock ⟨.gone, w⟩ []
  | releaseFree {s w} : Step s ⟨.releaseFree, w⟩ s.freeObject ⟨.gone, w⟩ []
  | lread {s w last} : Step s ⟨.reader last, w⟩ s ⟨.copyLock last, w⟩ []
  | copyLock {s w last} (hfree : s.obj.writing = false) :
      Step s ⟨.copyLock last, w⟩ s.rlock ⟨.copyLoad last, w⟩ []
  | copyLoad {s w last} (hcopy : s.obj.copy = none) :
      Step s ⟨.copyLoad last, w⟩ s ⟨.copyUnlock last none, w⟩ []
  | copyLoadSome {s w last ret} (hcopy : s.obj.copy = some ret) :
      Step s ⟨.copyLoad last, w⟩ s ⟨.copyAdd last ret, w⟩ []
  | copyAdd {s w last ret} :
      Step s ⟨.copyAdd last ret, w⟩ (s.addCopy ret 1) ⟨.copyUnlock last (some ret), w⟩ []
  | copyUnlock {s w last ret} :
      Step s ⟨.copyUnlock last ret, w⟩ s.runlock
        ⟨if ret = last then releasecopy ret (.reader last) else releasecopy last (.read ret), w⟩ []
  | hand {s w c k} (hcopy : s.copies[c]? = some k) :
      Step s ⟨.hand c, w⟩ s ⟨.reader (some c), w ++ [k.msg]⟩ []
  | ldeletereader {s w last} : Step s ⟨.reader last, w⟩ s ⟨.deleteLock last, w⟩ []
  | deleteLock {s w last} (hfree : s.obj.writing = false) :
      Step s ⟨.deleteLock last, w⟩ s.rlock ⟨.deleteSub last, w⟩ []
  | deleteSub {s w last} :
      Step s ⟨.deleteSub last, w⟩ (s.addReference (-1))
        ⟨if s.obj.reference + -1 = 0 then .deleteFree last else .deleteUnlock last, w⟩ []
  | deleteUnlock {s w last} :
      Step s ⟨.deleteUnlock last, w⟩ s.runlock ⟨releasecopy last .gone, w⟩ []
  | deleteFree {s w last} :
      Step s ⟨.deleteFree last, w⟩ s.freeObject ⟨releasecopy last .gone, w⟩ []
  | sub {s w c after} :
      Step s ⟨.sub c after, w⟩ (s.addCopy c (-1))
        ⟨if s.reference c + -1 = 0 then .free c after else after.pc, w⟩ []
  | free {s w c after} : Step s ⟨.free c after, w⟩ (s.freeCopy c) ⟨after.pc, w⟩ []

/-! ## What goes wrong -/

/-- The next step uses the object. -/
def Pc.usesObject : Pc → Prop
  | .writer | .reader _ | .copyAdd _ _ | .hand _ | .sub _ _ | .free _ _ | .gone => False
  | _ => True

/-- The copy that the next step uses. -/
def Pc.copy : Pc → Option Nat
  | .copyAdd _ c | .hand c | .sub c _ | .free c _ => some c
  | _ => none

/-- The assertion of the next step. -/
def Pc.asserts (s : Shared) : Pc → Prop
  | .releaseAssert => s.obj.copy ≠ none
  | .grabAdd => s.obj.reference > 0
  | .copyAdd _ c => s.reference c > 0
  | .deleteFree _ => s.obj.copy = none
  | _ => True

/-- The next step uses nothing that was freed, and asserts what holds. -/
structure Pc.Fine (s : Shared) (pc : Pc) : Prop where
  object : pc.usesObject → s.obj.freed = false
  copy : ∀ c, pc.copy = some c → s.dead c = false
  asserts : pc.asserts s

/-! ## Runs -/

structure State where
  shared : Shared
  threads : List Thread
deriving DecidableEq

/-- `stm_new` -/
def start (msg : List UInt8) : State :=
  ⟨⟨⟨0, false, 1, some 0, false⟩, [⟨1, msg, false⟩]⟩, [⟨.writer, []⟩]⟩

/-- The states that come of a new object through states with `P`, in any order of the steps. -/
inductive Run (P : State → Prop) : State → Prop
  | start (msg : List UInt8) : Run P (start msg)
  | step {s : State} {i : Nat} {t t' : Thread} {l : Shared} {started : List Thread}
      (hrun : Run P s) (hi : s.threads[i]? = some t) (hfine : t.pc.Fine s.shared)
      (hstep : Step s.shared t l t' started) (hp : P ⟨l, s.threads.set i t' ++ started⟩) :
      Run P ⟨l, s.threads.set i t' ++ started⟩

end Jump.Skynet.Stm
