import Fireweed.BTree

/-!
# Types of the engine

The key of a queue and the errors of the engine, as far as the modelled operations
return them.
-/

namespace Engine

/-- Tenant and queue. -/
abbrev QueueKey := String × String

inductive EngineError where
  | notFound
  | invalid (message : String)
  | terminal
  | staleLease
  | superseded
  | unavailable
  | conflict
  | batchTooLarge
  | epochFenced
  | forbidden (message : String)
  | storage (message : String)
deriving DecidableEq, Repr

abbrev EngineResult := Except EngineError

end Engine
