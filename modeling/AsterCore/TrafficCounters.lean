import Mathlib.Algebra.Group.Basic
import Mathlib.Tactic.Abel

namespace AsterCore

inductive Direction
  | upload
  | download
  deriving DecidableEq

@[ext] structure Counters where
  uploadBytes : Int64 := 0
  downloadBytes : Int64 := 0
  connections : Int64 := 0
  exceededEvents : Int64 := 0
  deriving DecidableEq

namespace Counters

/-- `Counters.add`: anything that is not an upload counts as a download. -/
def add (c : Counters) (direction : Direction) (bytes : Int64) : Counters :=
  if direction = Direction.upload then { c with uploadBytes := c.uploadBytes + bytes }
  else { c with downloadBytes := c.downloadBytes + bytes }

def totalBytes (c : Counters) : Int64 := c.uploadBytes + c.downloadBytes

def addCounters (left right : Counters) : Counters where
  uploadBytes := left.uploadBytes + right.uploadBytes
  downloadBytes := left.downloadBytes + right.downloadBytes
  connections := left.connections + right.connections
  exceededEvents := left.exceededEvents + right.exceededEvents

def bytesOnly (c : Counters) : Counters where
  uploadBytes := c.uploadBytes
  downloadBytes := c.downloadBytes

instance : Zero Counters := ⟨{}⟩
instance : Add Counters := ⟨addCounters⟩
instance : Neg Counters := ⟨fun c => ⟨-c.uploadBytes, -c.downloadBytes, -c.connections, -c.exceededEvents⟩⟩

@[simp] theorem zero_uploadBytes : (0 : Counters).uploadBytes = 0 := rfl
@[simp] theorem zero_downloadBytes : (0 : Counters).downloadBytes = 0 := rfl
@[simp] theorem zero_connections : (0 : Counters).connections = 0 := rfl
@[simp] theorem zero_exceededEvents : (0 : Counters).exceededEvents = 0 := rfl

@[simp] theorem add_uploadBytes (a b : Counters) : (a + b).uploadBytes = a.uploadBytes + b.uploadBytes := rfl
@[simp] theorem add_downloadBytes (a b : Counters) : (a + b).downloadBytes = a.downloadBytes + b.downloadBytes := rfl
@[simp] theorem add_connections (a b : Counters) : (a + b).connections = a.connections + b.connections := rfl
@[simp] theorem add_exceededEvents (a b : Counters) : (a + b).exceededEvents = a.exceededEvents + b.exceededEvents := rfl

/-- The counters wrap around as the machine integers do, so they form a group. -/
instance : AddCommGroup Counters where
  add_assoc a b c := by ext <;> exact Int64.add_assoc ..
  zero_add a := by ext <;> exact Int64.zero_add ..
  add_zero a := by ext <;> exact Int64.add_zero ..
  add_comm a b := by ext <;> exact Int64.add_comm ..
  neg_add_cancel a := by ext <;> exact Int64.add_left_neg ..
  nsmul := nsmulRec
  zsmul := zsmulRec

def ofBytes (direction : Direction) (bytes : Int64) : Counters := add 0 direction bytes

theorem add_eq_add_ofBytes (c : Counters) (direction : Direction) (bytes : Int64) :
    c.add direction bytes = c + ofBytes direction bytes := by
  cases direction <;> ext <;> simp [add, ofBytes]

theorem addCounters_eq_add (left right : Counters) : addCounters left right = left + right := rfl

@[simp] theorem bytesOnly_zero : bytesOnly 0 = 0 := rfl

theorem bytesOnly_add (a b : Counters) : bytesOnly (a + b) = bytesOnly a + bytesOnly b := by
  ext <;> simp [bytesOnly]

theorem bytesOnly_ofBytes (direction : Direction) (bytes : Int64) :
    bytesOnly (ofBytes direction bytes) = ofBytes direction bytes := by
  cases direction <;> rfl

end Counters

end AsterCore
