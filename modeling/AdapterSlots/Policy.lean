import Mathlib.Algebra.Order.Group.Unbundled.Abs
import AdapterSlots.Rates

/-!
# Warm adapters, feedback and promotion

The remaining inputs of a dispatch decision: the warm-set tracker
(`cache_manager.py` with the eviction rule of `predictor.py`), the WAR of a
batch (`war.py`) and the PI controller it drives (`pi_controller.py`), and
the promotion threshold chosen at run time (`apt.py`).

A Python exception that leaves a function is an `Except.error`.
-/

namespace AdapterSlots

open Lib

inductive PyError where
  | valueError
  | overflowError
  | zeroDivisionError
deriving DecidableEq, Repr

variable {K : Type} [Field K] [LinearOrder K]

/-! ## The warm set -/

inductive EvictionPolicy where
  | lru
  | topk
  | predictive
deriving DecidableEq, Repr

/-- `WarmCacheManager` without its statistics. `warm` lists the adapters from the
least to the most recently used one, with their last access. -/
structure WarmCacheManager (K : Type) where
  kWarmMax : ℕ
  kWarmMax_pos : 0 < kWarmMax
  tauLoadMs : K
  policy : EvictionPolicy
  warm : Dict String K

namespace WarmCacheManager

def isWarm (m : WarmCacheManager K) (k : String) : Bool := decide (k ∈ m.warm)

/-- The loop of the `topk` branch: the first adapter with the lowest rate. -/
def lowestRate (rates : Dict String K) : List String → Option (K × String) → Option (K × String)
  | [], best => best
  | k :: ks, best =>
      let lam := rates.getD k 0
      match best with
      | none => lowestRate rates ks (some (lam, k))
      | some (minRate, victim) =>
          lowestRate rates ks (some (if lam < minRate then (lam, k) else (minRate, victim)))

/-- `PredictivePrefetcher.eviction_score`. -/
def evictionScore (env : Env K) (lambdaK tauEvictS : K) : K :=
  if lambdaK ≤ 0 ∨ tauEvictS ≤ 0 then 0 else 1 - env.exp (-lambdaK * tauEvictS)

/-- `PredictivePrefetcher.get_eviction_target`: the least `(score, adapter)`. -/
def getEvictionTarget (env : Env K) (tauLoadS : K) (rates : Dict String K) (warm : List String) :
    Option String :=
  let scores := warm.map fun k => (evictionScore env (rates.getD k 0) tauLoadS, k)
  let sorted := scores.insertionSort fun a b => a.1 < b.1 ∨ a.1 = b.1 ∧ a.2 ≤ b.2
  sorted.head?.map Prod.snd

/-- An empty rate map is false in Python, so the two rate-based policies fall
back to the least recently used adapter. -/
def chooseEviction (env : Env K) (m : WarmCacheManager K) (rates : Dict String K) :
    Except PyError (Option String) :=
  let lruVictim := m.warm.keys.head?
  if m.warm.keys = [] ∨ rates.keys = [] then .ok lruVictim
  else
    match m.policy with
    | .lru => .ok lruVictim
    | .topk => .ok ((lowestRate rates m.warm.keys none).map Prod.snd)
    | .predictive =>
        if m.tauLoadMs ≤ 0 then .error .valueError
        else .ok (getEvictionTarget env (m.tauLoadMs / 1000) rates m.warm.keys)

/-- `self._warm[adapter_id] = t; self._warm.move_to_end(adapter_id)`. -/
def touch (m : WarmCacheManager K) (k : String) (t : K) : WarmCacheManager K :=
  { m with warm := (m.warm.erase k).insert k t }

def load (env : Env K) (m : WarmCacheManager K) (k : String) (t : K) (rates : Dict String K) :
    Except PyError (WarmCacheManager K) :=
  if m.kWarmMax ≤ m.warm.keys.length then do
    let victim ← m.chooseEviction env rates
    let warm := match victim with
      | none => m.warm
      | some v => m.warm.erase v
    pure (({ m with warm := warm } : WarmCacheManager K).touch k t)
  else pure (m.touch k t)

/-- Whether the adapter was warm, and the milliseconds a cold one takes to
load. -/
def request (env : Env K) (m : WarmCacheManager K) (k : String) (rates : Dict String K) (t : K) :
    Except PyError (WarmCacheManager K × Bool × K) :=
  if k ∈ m.warm then pure (m.touch k t, true, 0)
  else do
    let m' ← m.load env k t rates
    pure (m', false, m.tauLoadMs)

end WarmCacheManager

/-! ## The warp alignment ratio -/

/-- The code points at which the blocks of ten decimal digits begin. -/
def decimalZeros : List ℕ :=
  [0x30, 0x660, 0x6f0, 0x7c0, 0x966, 0x9e6, 0xa66, 0xae6, 0xb66, 0xbe6, 0xc66, 0xce6, 0xd66,
    0xde6, 0xe50, 0xed0, 0xf20, 0x1040, 0x1090, 0x17e0, 0x1810, 0x1946, 0x19d0, 0x1a80, 0x1a90,
    0x1b50, 0x1bb0, 0x1c40, 0x1c50, 0xa620, 0xa8d0, 0xa900, 0xa9d0, 0xa9f0, 0xaa50, 0xabf0,
    0xff10, 0x104a0, 0x10d30, 0x11066, 0x110f0, 0x11136, 0x111d0, 0x112f0, 0x11450, 0x114d0,
    0x11650, 0x116c0, 0x11730, 0x118e0, 0x11950, 0x11c50, 0x11d50, 0x11da0, 0x16a60, 0x16ac0,
    0x16b50, 0x1d7ce, 0x1d7d8, 0x1d7e2, 0x1d7ec, 0x1d7f6, 0x1e140, 0x1e2f0, 0x1e950, 0x1fbf0]

/-- What `int` strips: `str.isspace` also accepts U+001C to U+001F, which the conversion
leaves where they are. -/
def isSpace (c : Char) : Bool :=
  let n := c.toNat
  decide (9 ≤ n ∧ n ≤ 13 ∨ 8192 ≤ n ∧ n ≤ 8202)
    || [32, 133, 160, 5760, 8232, 8233, 8239, 8287, 12288].contains n

def decimalDigit (c : Char) : Option ℕ :=
  (decimalZeros.find? fun z => decide (z ≤ c.toNat ∧ c.toNat < z + 10)).map (c.toNat - ·)

/-- A non-empty string of at most 4300 digits, the interpreter's limit. -/
def decimal (ds : List Char) : Option ℕ :=
  if ds = [] ∨ 4300 < ds.length then none
  else ds.foldlM (fun n c => (decimalDigit c).map (10 * n + ·)) 0

/-- `int(s)` of a string without underscores; `none` is a `ValueError`. -/
def pyInt (cs : List Char) : Option ℤ :=
  let body := ((cs.dropWhile isSpace).reverse.dropWhile isSpace).reverse
  match body with
  | '-' :: ds => (decimal ds).map fun n => -(n : ℤ)
  | '+' :: ds => (decimal ds).map fun n => (n : ℤ)
  | ds => (decimal ds).map fun n => (n : ℤ)

/-- Underscores stand between digits. -/
def underscoresPlaced : Option Char → List Char → Bool
  | _, [] => true
  | prev, '_' :: cs =>
      (prev.bind decimalDigit).isSome && (cs.head?.bind decimalDigit).isSome
        && underscoresPlaced (some '_') cs
  | _, c :: cs => underscoresPlaced (some c) cs

/-- `int(s)`; `none` is a `ValueError`. -/
def intOfString (s : String) : Option ℤ :=
  if underscoresPlaced none s.toList then pyInt (s.toList.filter (· ≠ '_')) else none

/-- `_adapter_id_to_int`: the number behind the last underscore, else the hash
of the name, `& 0x7FFFFFFF`. -/
def adapterIdToInt (env : Env K) (k : String) : ℤ :=
  let last := (k.toList.reverse.takeWhile (· ≠ '_')).reverse
  (pyInt last).getD (env.hash k % 2147483648)

/-- The value an `int32` array takes for an integer of 64 bits. -/
def wrap32 (n : ℤ) : ℤ := (n + 2147483648) % 4294967296 - 2147483648

/-- Integers that do not fit into 64 bits cannot be converted. -/
def computeWarFromIds (adapterIds : List ℤ) (warpSize : ℕ) : Except PyError K :=
  if ∀ n ∈ adapterIds, -9223372036854775808 ≤ n ∧ n < 9223372036854775808 then
    let arr := adapterIds.map wrap32
    let m := arr.length / warpSize
    if m = 0 then .ok 0
    else
      let aligned := (List.range m).countP fun j =>
        let warp := (arr.drop (j * warpSize)).take warpSize
        decide (warp.min? = warp.max?)
      .ok ((aligned : K) / m)
  else .error .overflowError

/-! ## PI control -/

/-- `_prev_error`, `_prev_war` and `_prev_tmax`, set together. -/
structure PrevStep (K : Type) where
  error : K
  war : K
  tmax : K

structure PIController (K : Type) [Field K] [LinearOrder K] where
  kp : K
  ki : K
  kp_pos : 0 < kp
  ki_pos : 0 < ki
  warTarget : K
  tmax : K
  tmaxMin : K
  tmaxMax : K
  margin : K
  slopeAlpha : K
  L : Option K
  prev : Option (PrevStep K)

namespace PIController

def effectiveGains (c : PIController K) : K × K :=
  match c.L with
  | none => (c.kp, c.ki)
  | some L =>
      if L = 0 then (c.kp, c.ki)
      else
        let bound := c.margin * 2 / L
        let total := 2 * c.kp + c.ki
        if total ≤ bound then (c.kp, c.ki)
        else (c.kp * (bound / total), c.ki * (bound / total))

/-- The new estimate of the slope of WAR against `T_max`. -/
def nextSlope (c : PIController K) (war : K) : Option K :=
  match c.prev with
  | none => c.L
  | some p =>
      let dTmax := c.tmax - p.tmax
      if |dTmax| < 1 / 10 ^ 6 then c.L
      else
        let sample := |(war - p.war) / dTmax|
        some (match c.L with
          | none => sample
          | some L => (1 - c.slopeAlpha) * L + c.slopeAlpha * sample)

/-- One control step; the new `T_max` is the controller's `tmax`. -/
def update (c : PIController K) (warObserved : K) : PIController K :=
  let c := { c with L := c.nextSlope warObserved }
  let gains := c.effectiveGains
  let e := c.warTarget - warObserved
  let de := match c.prev with
    | none => 0
    | some p => e - p.error
  { c with
    prev := some ⟨e, warObserved, c.tmax⟩
    tmax := min (max (c.tmax + gains.1 * de + gains.2 * e) c.tmaxMin) c.tmaxMax }

end PIController

/-! ## The promotion threshold -/

/-- `sortedThresholds` are the promotable batch sizes of the hardware profile,
ascending. -/
structure AdaptivePromoThreshold (K : Type) where
  updateInterval : ℕ
  fallbackThreshold : ℤ
  sortedThresholds : List ℤ
  currentThreshold : ℤ
  tickCount : ℕ
  queueDepthHistory : List K

namespace AdaptivePromoThreshold

/-- The state of the constructor, with its default interval and fallback. -/
def init (sortedThresholds : List ℤ) : AdaptivePromoThreshold K where
  updateInterval := 100
  fallbackThreshold := 32
  sortedThresholds := sortedThresholds
  currentThreshold := sortedThresholds.head?.getD 32
  tickCount := 0
  queueDepthHistory := []

/-- The last threshold before the first one above the mean. -/
def selectThreshold (a : AdaptivePromoThreshold K) (meanQueueDepth : K) : ℤ :=
  ((a.sortedThresholds.takeWhile fun (n : ℤ) => decide ((n : K) ≤ meanQueueDepth)).getLast?).getD
    a.fallbackThreshold

def update (a : AdaptivePromoThreshold K) (meanQueueDepth : K) : AdaptivePromoThreshold K :=
  let history := a.queueDepthHistory ++ [meanQueueDepth]
  if a.updateInterval ≤ a.tickCount + 1 then
    { a with
      currentThreshold := a.selectThreshold (history.sum / (history.length : K))
      tickCount := 0
      queueDepthHistory := [] }
  else { a with tickCount := a.tickCount + 1, queueDepthHistory := history }

end AdaptivePromoThreshold

end AdapterSlots
