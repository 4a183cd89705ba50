import Columnar.Error

/-!
# Configuration

The knobs of planning: the share of rows that estimates read, the seed of the row sample, the
number of workers, the rows of an offset-list segment, the orientation of the table, and whether
one row sample serves all columns. `Config.validate` names the first fault of a configuration, in
the order ratio, workers, block size. The number of workers of a default configuration is that of
the host, which is a parameter here.
-/

namespace Columnar

/-- The knobs of planning. -/
structure Config where
  /-- The share of rows that estimates read. -/
  samplingRatio : Float
  /-- The seed of the row sample; without one a fresh seed is drawn. -/
  seed : Option UInt64
  threads : Nat
  /-- The rows of a segment. -/
  blockSize : Nat
  /-- Whether the rows of the table are planned as columns. -/
  transposeInput : Bool
  /-- Whether one row sample serves all columns. -/
  sampleOnce : Bool
deriving DecidableEq, Repr

/-- The rows of a segment unless a configuration says otherwise. -/
def defaultBlockSize : Nat := 65536

/-- A sampling ratio is positive and at most one. NaN is neither. -/
def isSamplingRatio (ratio : Float) : Bool := 0 < ratio && ratio ≤ 1

namespace Config

/-- Reads every row. -/
def default (hostThreads : Nat) : Config :=
  { samplingRatio := 1
    seed := none
    threads := hostThreads
    blockSize := defaultBlockSize
    transposeInput := false
    sampleOnce := true }

/-- Reads every row. -/
def exact (hostThreads : Nat) : Config := default hostThreads

/-- Reads a share of the rows, drawn by a seed. -/
def sampled (hostThreads : Nat) (ratio : Float) (seed : UInt64) : Config :=
  { default hostThreads with samplingRatio := ratio, seed := some seed }

/-- Accepts a configuration, or names its first fault. -/
def validate (c : Config) : Except PlanError Unit :=
  if !isSamplingRatio c.samplingRatio then
    .error (.invalidConfig (.samplingRatio c.samplingRatio))
  else if c.threads < 1 then .error (.invalidConfig .noThreads)
  else if c.blockSize = 0 then .error (.invalidConfig .zeroBlockSize)
  else .ok ()

def resolveSeed (c : Config) (fresh : UInt64) : UInt64 := c.seed.getD fresh

end Config

end Columnar
