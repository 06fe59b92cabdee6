import Nocter.Library.Word

/-!
# Service-qualified identities and epochs

Every identity carries the service that issued it, so a value of one service can
never stand for a value of another. Epochs count the capacity a service released.
-/

namespace Nocter.BlockingRuntime

structure ServiceIdentity where
  value : ℕ
deriving DecidableEq, Repr

structure JobId where
  service : ServiceIdentity
  sequence : ℕ
deriving DecidableEq, Repr

@[ext] structure CapacityEpoch where
  service : ServiceIdentity
  sequence : ℕ
deriving DecidableEq, Repr

@[ext] structure RetirementEpoch where
  service : ServiceIdentity
  sequence : ℕ
deriving DecidableEq, Repr

structure RetirementId where
  service : ServiceIdentity
  sequence : ℕ
deriving DecidableEq, Repr

/-- The derived order of identities: by service, then by sequence. -/
def qualifiedLe (a b : ServiceIdentity × ℕ) : Bool :=
  a.1.value < b.1.value || (a.1.value == b.1.value && a.2 ≤ b.2)

def JobId.le (a b : JobId) : Bool := qualifiedLe (a.service, a.sequence) (b.service, b.sequence)

def RetirementId.le (a b : RetirementId) : Bool :=
  qualifiedLe (a.service, a.sequence) (b.service, b.sequence)

namespace CapacityEpoch

def initial (service : ServiceIdentity) : CapacityEpoch := ⟨service, 0⟩

def belongsTo (epoch : CapacityEpoch) (service : ServiceIdentity) : Bool :=
  epoch.service.value == service.value

/-- One more release, saturating at the end of the epoch space. -/
def advance (epoch : CapacityEpoch) : CapacityEpoch :=
  { epoch with sequence := saturatingAdd u64Max epoch.sequence 1 }

end CapacityEpoch

namespace RetirementEpoch

def initial (service : ServiceIdentity) : RetirementEpoch := ⟨service, 0⟩

def belongsTo (epoch : RetirementEpoch) (service : ServiceIdentity) : Bool :=
  epoch.service.value == service.value

def canCoverReleases (epoch : RetirementEpoch) (releases : ℕ) : Bool :=
  decide (releases ≤ u64Max) && (checkedAdd u64Max epoch.sequence releases).isSome

/-- One more release; `none` when the epoch space is exhausted, where the source panics. -/
def advance (epoch : RetirementEpoch) : Option RetirementEpoch :=
  (checkedAdd u64Max epoch.sequence 1).map fun sequence => { epoch with sequence }

end RetirementEpoch

end Nocter.BlockingRuntime
