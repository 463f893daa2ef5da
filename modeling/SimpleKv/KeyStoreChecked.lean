import SimpleKv.KeyStoreMap

/- `key_store.rs` in a build with overflow checks. The addition of `get_bucket_index` is
   the one that a hash can drive over `usize::MAX`: a hash is any `u64`. There the build
   panics, and everywhere else it does what the wrapping build does: the functions below
   are those of `KeyStore`, with an addition that may stop them. -/
namespace SimpleKv
namespace KeyStore
namespace Checked

variable {K V : Type}

/-- `(hash as usize + psl) & (buckets.len() - 1)`, the addition checked. -/
def getBucketIndex : List (Option (Entry K V)) → UInt64 → Nat → Rust Nat :=
  getBucketIndexWith usizeAdd

def insertEntryLoop : Nat → List (Option (Entry K V)) → Entry K V →
    Rust (List (Option (Entry K V))) :=
  insertEntryLoopWith usizeAdd

def insertEntry : KeyStore K V → Entry K V → Rust (KeyStore K V) := insertEntryWith usizeAdd

def resize : KeyStore K V → Rust (KeyStore K V) := resizeWith insertEntry

variable [DecidableEq K]

def delLoop : Nat → KeyStore K V → K → UInt64 → Nat → Rust (Option V × KeyStore K V) :=
  delLoopWith usizeAdd

def del (self : KeyStore K V) (key : K) : Rust (Option V × KeyStore K V) :=
  delLoop self.buckets.length self key (self.hasher key) 0

def indexOfLoop : Nat → KeyStore K V → K → UInt64 → Nat → Rust (Option Nat) :=
  indexOfLoopWith usizeAdd

def indexOf (self : KeyStore K V) (key : K) : Rust (Option Nat) :=
  indexOfLoop self.buckets.length self key (self.hasher key) 0

def get : KeyStore K V → K → Rust (Option V) := getWith indexOf

def getMut : KeyStore K V → K → (V → V) → Rust (Option V × KeyStore K V) := getMutWith indexOf

def insertLoop : Nat → List (Option (Entry K V)) → Entry K V → Nat →
    Rust (Option V × List (Option (Entry K V))) :=
  insertLoopWith usizeAdd

def insert : KeyStore K V → K → V → Rust (Option V × KeyStore K V) :=
  insertWith usizeAdd shouldResize resize

def run : Op K V → KeyStore K V → Rust (Option V × KeyStore K V) :=
  Op.runWith insert get getMut del

def runOps : List (Op K V) → KeyStore K V → Rust (List (Option V) × KeyStore K V) :=
  runOpsWith run

end Checked
end KeyStore
end SimpleKv
