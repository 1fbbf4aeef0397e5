import TitanX.Model.CircuitBreaker
import TitanX.Model.JavaBook
import Mathlib.Data.Rat.Floor

/-!
# The Java circuit breaker

`com.titanx.risk.CircuitBreaker`. It has the maps of the C++ breaker and no lock of its own,
and differs in how it measures: the move is a quotient of decimals, rounded half up to six
places, and the age of a window is a difference of epoch seconds. A halt that a trade sets
off is set and the call returns.

Calls are made one at a time. Times are nanoseconds since the epoch.
-/

namespace TitanX.Java

structure CircuitBreaker where
  symbolHalts : Finmap (fun _ : String => Bool)
  referencePrice : Finmap (fun _ : String => BigDecimal)
  windowStart : Finmap (fun _ : String => Int)

namespace CircuitBreaker

def haltThresholdPct : BigDecimal := 5 / 100

def windowSeconds : Int := 60

def initial : CircuitBreaker := ⟨∅, ∅, ∅⟩

/-- `getEpochSecond()`: rounded down. -/
def epochSecond (instant : Int) : Int := instant / 1000000000

/-- To six places, ties away from zero: the rounding of `divide(_, 6, HALF_UP)`. -/
def halfUp (x : BigDecimal) : BigDecimal :=
  let magnitude : BigDecimal := (⌊|x| * 1000000 + 1 / 2⌋ : Int) / 1000000
  if x < 0 then -magnitude else magnitude

def pctMove (refPrice tradePrice : BigDecimal) : BigDecimal :=
  halfUp (|tradePrice - refPrice| / refPrice)

def openWindow (cb : CircuitBreaker) (now : Int) (symbol : String) (tradePrice : BigDecimal) :
    CircuitBreaker :=
  { cb with
    referencePrice := cb.referencePrice.insert symbol tradePrice
    windowStart := cb.windowStart.insert symbol now }

def haltSymbol (cb : CircuitBreaker) (symbol : String) : CircuitBreaker :=
  { cb with symbolHalts := cb.symbolHalts.insert symbol true }

/-- Nothing if the division throws. -/
def recordTrade (cb : CircuitBreaker) (now : Int) (symbol : String) (tradePrice : BigDecimal) :
    Option CircuitBreaker :=
  match cb.referencePrice.lookup symbol, cb.windowStart.lookup symbol with
  | some refPrice, some wStart =>
      if epochSecond now - epochSecond wStart > windowSeconds then
        some (cb.openWindow now symbol tradePrice)
      else if refPrice = 0 then none
      else if pctMove refPrice tradePrice > haltThresholdPct then some (cb.haltSymbol symbol)
      else some cb
  | _, _ => some (cb.openWindow now symbol tradePrice)

def resumeSymbol (cb : CircuitBreaker) (symbol : String) : CircuitBreaker where
  symbolHalts :=
    if symbol ∈ cb.symbolHalts then cb.symbolHalts.insert symbol false else cb.symbolHalts
  referencePrice := cb.referencePrice.erase symbol
  windowStart := cb.windowStart.erase symbol

def isHalted (cb : CircuitBreaker) (symbol : String) : Bool :=
  (cb.symbolHalts.lookup symbol).getD false

end CircuitBreaker

inductive BreakerOp where
  | recordTrade (now : Int) (symbol : String) (tradePrice : BigDecimal)
  | haltSymbol (symbol : String)
  | resumeSymbol (symbol : String)
  | isHalted (symbol : String)
  | haltStatus

/-- One call, and what it returned if it threw nothing. -/
def CircuitBreaker.step (cb : CircuitBreaker) (op : BreakerOp) : CircuitBreaker × Option BreakerRet :=
  match op with
  | .recordTrade now symbol tradePrice =>
      match cb.recordTrade now symbol tradePrice with
      | some cb' => (cb', some .done)
      | none => (cb, none)
  | .haltSymbol symbol => (cb.haltSymbol symbol, some .done)
  | .resumeSymbol symbol => (cb.resumeSymbol symbol, some .done)
  | .isHalted symbol => (cb, some (.flag (cb.isHalted symbol)))
  | .haltStatus => (cb, some (.status cb.symbolHalts))

end TitanX.Java
