import TitanX.Lib.Mutex
import TitanX.Lib.Run
import TitanX.Model.Order
import Mathlib.Data.Finmap

/-!
# The circuit breaker

`titanx/risk/CircuitBreaker`: a halt flag per symbol, and per symbol the reference
price and the start of the current window. Five methods, each under `mutex_`.

`recordTrade` is the one that calls another of them: when the move from the
reference price is above the threshold it calls `haltSymbol`, and it does so inside
its own critical section. The model keeps the call where the source has it. It is also
the one that divides by a number it was given: at a reference price of -1 the quotient
can be `2 ^ 63`, for which the processor traps and the process is gone. Such a call does
not return, and neither does one made after it.

Times are readings of the steady clock in nanoseconds. The `reason` of a halt goes
to the log only.
-/

namespace TitanX

/-- The maps under `mutex_`. -/
structure CircuitBreaker where
  symbolHalts : Finmap (fun _ : String => Bool)
  referencePrice : Finmap (fun _ : String => Int)
  windowStart : Finmap (fun _ : String => Int)
  deriving DecidableEq

namespace CircuitBreaker

def haltThresholdBps : Int := 500

def windowSeconds : Int := 60

def initial : Guarded CircuitBreaker := ⟨false, ⟨∅, ∅, ∅⟩⟩

/-! ## The window -/

/-- `duration_cast<seconds>`: whole seconds, towards zero. -/
def elapsedSeconds (start now : Int) : Int := (now - start).tdiv 1000000000

def pctMoveBps (refPrice tradePrice : Int) : Int := moveBps refPrice tradePrice

def openWindow (cb : CircuitBreaker) (now : Int) (symbol : String) (tradePrice : Int) :
    CircuitBreaker :=
  { cb with
    referencePrice := cb.referencePrice.insert symbol tradePrice
    windowStart := cb.windowStart.insert symbol now }

/-- How far `recordTrade` gets: to its end, to the call of `haltSymbol`, or to a division
that traps. -/
inductive Verdict where
  | quiet
  | halts
  | traps
  deriving DecidableEq

/-- `recordTrade` up to the halt, and the maps by then. -/
def observe (cb : CircuitBreaker) (now : Int) (symbol : String) (tradePrice : Int) :
    Verdict × CircuitBreaker :=
  match cb.referencePrice.lookup symbol, cb.windowStart.lookup symbol with
  | some refPrice, some start =>
      if elapsedSeconds start now > windowSeconds then (.quiet, cb.openWindow now symbol tradePrice)
      else if refPrice = 0 then (.quiet, cb)
      else if divTraps (moveScaled refPrice tradePrice) refPrice then (.traps, cb)
      else if pctMoveBps refPrice tradePrice > haltThresholdBps then (.halts, cb)
      else (.quiet, cb)
  | _, _ => (.quiet, cb.openWindow now symbol tradePrice)

/-- The flag `isHalted` reads. -/
def haltFlag (cb : CircuitBreaker) (symbol : String) : Bool :=
  (cb.symbolHalts.lookup symbol).getD false

/-! ## The methods -/

def haltSymbol (g : Guarded CircuitBreaker) (symbol : String) :
    Outcome (Guarded CircuitBreaker) Unit :=
  critical g (fun cb => ((), { cb with symbolHalts := cb.symbolHalts.insert symbol true }))

def recordTrade (g : Guarded CircuitBreaker) (now : Int) (symbol : String) (tradePrice : Int) :
    Outcome (Guarded CircuitBreaker) Unit :=
  locked g (fun g' =>
    let r := g'.data.observe now symbol tradePrice
    match r.1 with
    | .quiet => .returned () ⟨g'.held, r.2⟩
    | .halts => haltSymbol ⟨g'.held, r.2⟩ symbol
    | .traps => .blocked ⟨g'.held, r.2⟩)

def resumeSymbol (g : Guarded CircuitBreaker) (symbol : String) :
    Outcome (Guarded CircuitBreaker) Unit :=
  critical g (fun cb => ((),
    { symbolHalts :=
        if symbol ∈ cb.symbolHalts then cb.symbolHalts.insert symbol false else cb.symbolHalts
      referencePrice := cb.referencePrice.erase symbol
      windowStart := cb.windowStart.erase symbol }))

def isHalted (g : Guarded CircuitBreaker) (symbol : String) :
    Outcome (Guarded CircuitBreaker) Bool :=
  critical g (fun cb => (cb.haltFlag symbol, cb))

def haltStatus (g : Guarded CircuitBreaker) :
    Outcome (Guarded CircuitBreaker) (Finmap (fun _ : String => Bool)) :=
  critical g (fun cb => (cb.symbolHalts, cb))

end CircuitBreaker

/-! ## Runs of a breaker -/

inductive BreakerOp where
  | recordTrade (now : Int) (symbol : String) (tradePrice : Int)
  | haltSymbol (symbol : String)
  | resumeSymbol (symbol : String)
  | isHalted (symbol : String)
  | haltStatus

/-- What a method returns. -/
inductive BreakerRet where
  | done
  | flag (halted : Bool)
  | status (flags : Finmap (fun _ : String => Bool))

/-- One call: the state it leaves, and what it returned if it did. -/
def CircuitBreaker.step (g : Guarded CircuitBreaker) (op : BreakerOp) :
    Guarded CircuitBreaker × Option BreakerRet :=
  match op with
  | .recordTrade now symbol tradePrice =>
      let o := recordTrade g now symbol tradePrice
      (o.state, o.value?.map (fun _ => .done))
  | .haltSymbol symbol =>
      let o := haltSymbol g symbol
      (o.state, o.value?.map (fun _ => .done))
  | .resumeSymbol symbol =>
      let o := resumeSymbol g symbol
      (o.state, o.value?.map (fun _ => .done))
  | .isHalted symbol =>
      let o := isHalted g symbol
      (o.state, o.value?.map .flag)
  | .haltStatus =>
      let o := haltStatus g
      (o.state, o.value?.map .status)

end TitanX
