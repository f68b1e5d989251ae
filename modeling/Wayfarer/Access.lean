import Wayfarer.Ident
import Wayfarer.Table

/-!
# Access

Levels of access in increasing order, and the list that grants them: one level
for everybody and one for each named tenant. The greater of the two counts.
-/

namespace Wayfarer

/-- What a tenant may do with an object. Each level includes the ones before
it. -/
inductive Level
  | read | connect | write
  deriving DecidableEq, Inhabited

namespace Level

/-- The place of a level in the order. -/
def rank : Level → Nat
  | .read => 0
  | .connect => 1
  | .write => 2

/-- Whether holding `held` is enough where `required` is asked for. -/
def covers (held required : Level) : Bool := required.rank ≤ held.rank

/-- The word for a level. -/
def text : Level → String
  | .read => "Read"
  | .connect => "Connect"
  | .write => "Write"

/-- The greater of two optional levels; any level is greater than none. -/
def best : Option Level → Option Level → Option Level
  | none, b => b
  | a, none => a
  | some a, some b => if b.covers a then some b else some a

end Level

/-- Who may do what, besides the owner. -/
structure Access where
  everyone : Option Level
  roots : Table RootId Level
  deriving Inhabited, DecidableEq

namespace Access

/-- Nobody but the owner. -/
def ownerOnly : Access := ⟨none, Table.empty⟩

/-- Everybody gets `level`. -/
def grant (a : Access) (level : Level) : Access := { a with everyone := some level }

/-- The grant to everybody withdrawn. -/
def revoke (a : Access) : Access := { a with everyone := none }

/-- One tenant gets `level`. -/
def allow (a : Access) (root : RootId) (level : Level) : Access :=
  { a with roots := a.roots.insert root level }

/-- The grant to one tenant withdrawn. -/
def disallow (a : Access) (root : RootId) : Access := { a with roots := a.roots.erase root }

/-- The level the list grants to a tenant. -/
def levelFor (a : Access) (root : RootId) : Option Level :=
  Level.best a.everyone (a.roots.get? root)

end Access

end Wayfarer
