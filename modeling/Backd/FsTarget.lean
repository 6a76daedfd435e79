import Mathlib.Data.List.Basic
import Backd.CString
import Backd.Records

/-!
# Targets, Stats and Events

The data of `fs_target.h`: what the daemon keeps about an observed file.

* `Stat` is `struct stat`, `Filetype` the file type read off its mode;
* `FsTargetEvent` is one entry of a target's history;
* `FsTarget` is what a `fs_target_t *` leads to: nothing, a record that was released, or
  a live record with its history and, for a directory, its children.

## Conventions

A pointer stored in an event is kept as a reference (`PathRef`): the daemon stores the
pointer, not the characters behind it.
-/

namespace Backd

/-! ### Stats -/

/-- `struct stat`. -/
structure Stat where
  dev : UInt64
  ino : UInt64
  mode : UInt32
  nlink : UInt64
  uid : UInt32
  gid : UInt32
  rdev : UInt64
  size : Int64
  blksize : Int64
  blocks : Int64
  atime : Int64
  mtime : Int64
  ctime : Int64
  deriving DecidableEq, Repr

/-- `struct stat st = { 0 }`. -/
def Stat.zeroed : Stat :=
  { dev := 0, ino := 0, mode := 0, nlink := 0, uid := 0, gid := 0, rdev := 0, size := 0,
    blksize := 0, blocks := 0, atime := 0, mtime := 0, ctime := 0 }

/-- The `errno` values `lstat` can leave that the daemon tells apart. -/
inductive Errno
  | eacces
  | enoent
  | other
  deriving DecidableEq, Repr

/-- What a call of `lstat` answers. -/
abbrev LstatResult := Except Errno Stat

/-- `filetype_e`. -/
inductive Filetype
  | unknown
  | fifo
  | chardev
  | directory
  | blockdev
  | normal
  | symbolicLink
  | sock
  deriving DecidableEq, Repr

/-- `S_IFMT`. -/
def sIfmt : UInt32 := 0o170000

/-- `__filetype(st_mode)`. -/
def filetype (mode : UInt32) : Filetype :=
  if mode &&& sIfmt = 0o010000 then .fifo
  else if mode &&& sIfmt = 0o020000 then .chardev
  else if mode &&& sIfmt = 0o040000 then .directory
  else if mode &&& sIfmt = 0o060000 then .blockdev
  else if mode &&& sIfmt = 0o100000 then .normal
  else if mode &&& sIfmt = 0o120000 then .symbolicLink
  else if mode &&& sIfmt = 0o140000 then .sock
  else .unknown

/-- `__fuid_create(st)`. -/
def fuidCreate (st : Stat) : UInt64 :=
  st.ino <<< 32 ||| st.dev

/-! ### Events -/

/-- `EVENT_ACK`. -/
def eventAck : Int32 := (1 : Int32) <<< 1

/-- `EVENT_DELETE`. -/
def eventDelete : Int32 := (1 : Int32) <<< 4

/-- `EVENT_MODIFY`. -/
def eventModify : Int32 := (1 : Int32) <<< 5

/-- `EVENT_OPEN`. -/
def eventOpen : Int32 := (1 : Int32) <<< 6

/-- `EVENT_FAIL`. -/
def eventFail : Int32 := (1 : Int32) <<< 7

/-- A `const char *` stored in an event: the string a function received, or the buffer
`path()` that the observer rewrites all the time. -/
inductive PathRef
  | argument (s : CStr)
  | curPath
  deriving DecidableEq, Repr

/-- `fs_target_event_t`. -/
structure FsTargetEvent where
  mask : Int32
  path : PathRef
  timestamp : UInt64
  st : Stat
  deriving DecidableEq, Repr

/-- `sizeof(fs_target_event_t)`. -/
def sizeofEvent : ℕ := 168

/-! ### Targets -/

/-- The `finfo` of a target. -/
structure Finfo where
  uid : UInt64
  type : Filetype
  name : CStr
  ok : Bool
  deriving DecidableEq, Repr

/-- What a `fs_target_t *` leads to. A record released by `fs_target_dealloc` stays where
a pointer to it was stored. The children are `none` until `fs_target_children_init`. -/
inductive FsTarget
  | null
  | released
  | live (finfo : Finfo) (events : Records FsTargetEvent) (children : Option (List FsTarget))

/-- What the pointer of a target leads to is not `NULL`. -/
def FsTarget.NotNull : FsTarget → Prop
  | .null => False
  | .released | .live _ _ _ => True

instance : DecidablePred FsTarget.NotNull
  | .null => isFalse id
  | .released | .live _ _ _ => isTrue trivial

theorem FsTarget.eq_null {t : FsTarget} (h : ¬ t.NotNull) : t = .null := by
  cases t with
  | null => rfl
  | released => exact absurd trivial h
  | live => exact absurd trivial h

@[simp] theorem FsTarget.decide_notNull_live (finfo : Finfo)
    (events : Records FsTargetEvent) (children : Option (List FsTarget)) :
    decide (FsTarget.live finfo events children).NotNull = true := rfl

end Backd
