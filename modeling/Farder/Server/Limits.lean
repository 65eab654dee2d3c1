import Farder.Support.Execution
import Farder.Support.SlidingWindow
import Mathlib.Data.UInt

/-! # Limits

The server limits what a member may ask for in a while. The relay limits the connections that are
open at a time, and how many of them one address may open in a while. -/
namespace Server

open SlidingWindow FiniteMap

structure RateLimiter (κ : Type) where
  users : Queues κ ℕ
  maxPerWindow : ℕ
  windowSecs : ℕ

namespace RateLimiter

variable {κ : Type} [DecidableEq κ]

def new (maxPerWindow windowSecs : ℕ) : RateLimiter κ := ⟨∅, maxPerWindow, windowSecs⟩

/-- `RateLimiter::allow`, at the reading of the clock. -/
def allow (l : RateLimiter κ) (user : κ) (now : ℕ) : RateLimiter κ × Bool :=
  let admitted := admitCall (.within l.windowSecs) l.maxPerWindow l.users user now
  ({ l with users := admitted.1 }, admitted.2)

end RateLimiter

/-- The count has the width of the machine. -/
structure ConnectionLimiter (κ : Type) where
  maxConnections : UInt64
  ratePerWindow : ℕ
  window : ℕ
  active : UInt64
  perIp : Queues κ ℕ

namespace ConnectionLimiter

variable {κ : Type} [DecidableEq κ]

def new (maxConnections : UInt64) (ratePerWindow window : ℕ) : ConnectionLimiter κ :=
  ⟨maxConnections, ratePerWindow, window, 0, ∅⟩

/-- `ConnectionLimiter::try_admit`; whether there is a guard. The cap comes first, and a refusal
gives back what has been counted. -/
def tryAdmit (l : ConnectionLimiter κ) (ip : κ) (now : ℕ) : ConnectionLimiter κ × Bool :=
  let prev := l.active
  let l := { l with active := l.active + 1 }
  if prev ≥ l.maxConnections then ({ l with active := l.active - 1 }, false)
  else
    let perIp := dropIdle (.within l.window) now l.perIp
    let admitted := admitCall (.within l.window) l.ratePerWindow perIp ip now
    let l := { l with perIp := admitted.1 }
    if admitted.2 = false then ({ l with active := l.active - 1 }, false) else (l, true)

/-- A guard is dropped. -/
def release (l : ConnectionLimiter κ) : ConnectionLimiter κ := { l with active := l.active - 1 }

end ConnectionLimiter
end Server
