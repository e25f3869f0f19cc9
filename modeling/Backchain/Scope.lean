/-! Scopes tell apart the variables of different queries and rule instances: the same name in two scopes is two
variables. -/

namespace Backchain

abbrev Scope := Nat

/-- What scopes are drawn from, one after the other. -/
class ScopeSource (σ : Type) where
  fresh : σ → Scope × σ

namespace ScopeSource

def draw {σ : Type} [ScopeSource σ] : (count : Nat) → σ → List Scope × σ
  | 0, source => ([], source)
  | count + 1, source =>
    let (scope, source) := fresh source
    let (scopes, source) := draw count source
    (scope :: scopes, source)

end ScopeSource

/-- A source of scopes, none of which it hands out twice. -/
structure ScopeSupply where
  next : Scope := 0
deriving DecidableEq

namespace ScopeSupply

def fresh (supply : ScopeSupply) : Scope × ScopeSupply := (supply.next, ⟨supply.next + 1⟩)

instance : ScopeSource ScopeSupply := ⟨fresh⟩

theorem draw_eq (supply : ScopeSupply) (count : Nat) :
    ScopeSource.draw count supply = (List.range' supply.next count, ⟨supply.next + count⟩) := by
  induction count generalizing supply with
  | zero => rfl
  | succ count ih =>
    simp [ScopeSource.draw, ScopeSource.fresh, fresh, ih, List.range'_succ, Nat.add_assoc, Nat.add_comm 1]

end ScopeSupply

/-- A source that counts on 64 bits. After the last scope it starts over, and hands out again what it has handed out
before. -/
structure ScopeCounter where
  next : UInt64 := 0
deriving DecidableEq

namespace ScopeCounter

def fresh (counter : ScopeCounter) : Scope × ScopeCounter := (counter.next.toNat, ⟨counter.next + 1⟩)

instance : ScopeSource ScopeCounter := ⟨fresh⟩

end ScopeCounter
end Backchain
