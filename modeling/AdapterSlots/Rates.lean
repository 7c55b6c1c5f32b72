import Mathlib.Data.List.Sort
import AdapterSlots.Buffer

/-!
# Rates, deadlines and scores

What the dispatch rules read besides the queues: the arrival rate
estimates (`estimator.py`), the Erlang deadlines computed from them
(`erlang.py`) and the CASH order of the queues (`cash.py`).

The special functions of scipy and the parts of the Python runtime whose
results the language leaves open are the fields of `Env`.
-/

namespace AdapterSlots

open Lib

/-- What the scheduler takes from its surroundings. -/
structure Env (K : Type) where
  /-- The regularised lower incomplete gamma function. -/
  gammainc : K → K → K
  gammaincinv : ℕ → K → K
  exp : K → K
  /-- `hash` of a string, which differs between processes. -/
  hash : String → ℤ
  /-- The iteration order of a set, given the order of the insertions. -/
  setOrder : List String → List String
  setOrder_perm : ∀ l, l.Nodup → (setOrder l).Perm l

variable {K : Type} [Field K] [LinearOrder K]

/-! ## Arrival rates -/

/-- The per-adapter EWMA of the instantaneous arrival rate. The scheduler's estimator
has adapter names as keys, the router's adapter numbers. -/
structure ArrivalRateEstimator (K : Type) [Field K] [LinearOrder K] (A : Type := String) where
  alpha : K
  alpha_pos : 0 < alpha
  alpha_lt_one : alpha < 1
  defaultRate : K
  lastArrival : Dict A K
  rateEstimate : Dict A K
  arrivalCount : Dict A ℕ

namespace ArrivalRateEstimator

variable {A : Type} [DecidableEq A]

/-- The default rate of the constructor is one token per second. -/
def init (alpha : K) (hpos : 0 < alpha) (hlt : alpha < 1) : ArrivalRateEstimator K A where
  alpha := alpha
  alpha_pos := hpos
  alpha_lt_one := hlt
  defaultRate := 1
  lastArrival := .empty
  rateEstimate := .empty
  arrivalCount := .empty

def getRate (e : ArrivalRateEstimator K A) (k : A) : K := e.rateEstimate.getD k e.defaultRate

/-- The estimate after an arrival at `tNow`. -/
def nextRate (e : ArrivalRateEstimator K A) (k : A) (tNow : K) : K :=
  match e.lastArrival.get? k with
  | some last =>
      let iat := max (tNow - last) (1 / 10 ^ 9)
      (1 - e.alpha) * e.getRate k + e.alpha / iat
  | none => e.getRate k

def update (e : ArrivalRateEstimator K A) (k : A) (tNow : K) : ArrivalRateEstimator K A :=
  { e with
    arrivalCount := e.arrivalCount.insert k (e.arrivalCount.getD k 0 + 1)
    rateEstimate := e.rateEstimate.insert k (e.nextRate k tNow)
    lastArrival := e.lastArrival.insert k tNow }

def setRates (e : ArrivalRateEstimator K A) (rates : Dict A K) : ArrivalRateEstimator K A :=
  { e with rateEstimate := e.rateEstimate.insertAll rates.entries }

def getAllRates (e : ArrivalRateEstimator K A) : Dict A K := e.rateEstimate

end ArrivalRateEstimator

/-! ## Erlang deadlines -/

/-- `T*(k)`: the time in which a queue fills a warp with probability
`warTarget`, at most `T_SLO`. -/
def computeTmaxErlang (env : Env K) (warpSize : ℕ) (lambdaK warTarget ttftSloMs : K) : K :=
  if lambdaK ≤ 0 then ttftSloMs / 1000
  else min (env.gammaincinv warpSize warTarget / lambdaK) (ttftSloMs / 1000)

def computeTmaxErlangBatch (env : Env K) (warpSize : ℕ) (lambdaK : Dict String K)
    (warTarget ttftSloMs : K) : Dict String K :=
  lambdaK.mapValues fun _ lam => computeTmaxErlang env warpSize lam warTarget ttftSloMs

/-! ## CASH scores -/

namespace CASHDispatcher

/-- `I_k = lambda_k * s_k * P_k(s_k)` for every queue. -/
def computeIndices (env : Env K) (W : ℕ) (queueLens : Dict String ℕ)
    (ages lambdaEst deadlines : Dict String K) : Dict String K :=
  queueLens.mapValues fun k (q : ℕ) =>
    let lam := max (lambdaEst.getD k 0) 0
    let left := max (deadlines.getD k 0 - ages.getD k 0) 0
    let missing := max ((W : K) - q) 0
    let s := min ((q : K) / W) 1
    let pFill := if 0 < missing then env.gammainc (max missing 1) (lam * left) else 1
    lam * s * pFill

/-- Highest score first; equal scores keep the order of the dictionary. -/
def rank (indices : Dict String K) : List String :=
  indices.keys.insertionSort fun a b => indices.getD b 0 ≤ indices.getD a 0

theorem rank_perm (indices : Dict String K) : (rank indices).Perm indices.keys :=
  List.perm_insertionSort _ _

/-- No adapter is ranked twice. -/
theorem nodup_rank (indices : Dict String K) : (rank indices).Nodup :=
  (rank_perm indices).nodup_iff.mpr indices.nodup_keys

end CASHDispatcher

end AdapterSlots
