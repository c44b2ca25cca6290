import RbatisCache.Collections.BTreeMap

/-! The consistent hash ring (`consistent_hash.rs`). A point belongs to the node that was placed on it
last, and a key to the node of the first point at or above its own hash, around the ring. -/
namespace RbatisCache.Memcached

/-- Every point belongs to one of the nodes. -/
structure ConsistentHashRing where
  points : BTreeMap UInt64 Nat
  nodeCount : Nat
  valid : ∀ (point : UInt64) (node : Nat), points[point]? = some node → node < nodeCount

namespace ConsistentHashRing
variable (hash : String → UInt64)

/-- The inner loop of `new`: the virtual points of one node. -/
def place (virtualNodes : UInt16) (points : BTreeMap UInt64 Nat) (node : Nat) :
    BTreeMap UInt64 Nat :=
  (List.range virtualNodes.toNat).foldl
    (fun points replica => points.insert (hash s!"node:{node}:replica:{replica}") node) points

/-- The outer loop of `new`. -/
def placeAll (nodeCount : Nat) (virtualNodes : UInt16) : BTreeMap UInt64 Nat :=
  (List.range nodeCount).foldl (place hash virtualNodes) ∅

/-- Placing a node only adds points of its own, at the cost of other nodes' if hashes collide. -/
theorem place_extends (virtualNodes : UInt16) (points : BTreeMap UInt64 Nat) (node : Nat) :
    points.Extends (place hash virtualNodes points node) node := by
  unfold place
  generalize List.range virtualNodes.toNat = replicas
  have grows : ∀ current : BTreeMap UInt64 Nat, points.Extends current node →
      points.Extends (replicas.foldl (fun points replica =>
        points.insert (hash s!"node:{node}:replica:{replica}") node) current) node := by
    induction replicas with
    | nil => exact fun _ h => h
    | cons replica replicas ih => exact fun _ h => ih _ (h.insert _)
  exact grows points (.refl points node)

private theorem placeAll_succ (nodeCount : Nat) (virtualNodes : UInt16) :
    placeAll hash (nodeCount + 1) virtualNodes =
      place hash virtualNodes (placeAll hash nodeCount virtualNodes) nodeCount := by
  rw [placeAll, List.range_succ, List.foldl_append]
  rfl

private theorem placeAll_valid (nodeCount : Nat) (virtualNodes : UInt16) (point : UInt64) (node : Nat)
    (h : (placeAll hash nodeCount virtualNodes)[point]? = some node) : node < nodeCount := by
  induction nodeCount with
  | zero => cases h
  | succ nodeCount ih =>
    rw [placeAll_succ] at h
    rcases (place_extends hash virtualNodes _ nodeCount).found h with old | rfl
    · exact Nat.lt_succ_of_lt (ih old)
    · exact Nat.lt_succ_self _

def new (nodeCount : Nat) (virtualNodes : UInt16) : ConsistentHashRing where
  points := placeAll hash nodeCount virtualNodes
  nodeCount := nodeCount
  valid := placeAll_valid hash nodeCount virtualNodes

def nodeFor (ring : ConsistentHashRing) (key : String) : Nat :=
  ((ring.points.ceiling (hash key)).or ring.points.firstKeyValue).elim 0 fun entry => entry.2

/-! ### Growing the ring -/

variable {hash : String → UInt64} {ring grown : ConsistentHashRing} {key : String}

/-- A lookup in a ring that has nodes gives one of them. -/
theorem nodeFor_lt (nonempty : 0 < ring.nodeCount) : ring.nodeFor hash key < ring.nodeCount := by
  unfold nodeFor
  cases hfound : (ring.points.ceiling (hash key)).or ring.points.firstKeyValue with
  | none => exact nonempty
  | some entry =>
    obtain ⟨point, node⟩ := entry
    apply ring.valid point node
    rcases Option.or_eq_some_iff.mp hfound with h | ⟨-, h⟩
    · exact (BTreeMap.firstWhere_eq_some.mp h).1
    · exact (BTreeMap.firstWhere_eq_some.mp h).1

/-- A key stays where it is or moves to the node that was added. -/
theorem nodeFor_of_extends {added : Nat} (grows : ring.points.Extends grown.points added) :
    grown.nodeFor hash key = ring.nodeFor hash key ∨ grown.nodeFor hash key = added := by
  unfold nodeFor
  cases hceiling : grown.points.ceiling (hash key) with
  | some entry =>
    rcases grows.firstWhere_eq_some hceiling with rfl | same
    · exact .inr rfl
    · rw [BTreeMap.ceiling, same]
      exact .inl rfl
  | none =>
    -- no point of either ring is at or above the key, so both lookups wrap around
    have none_before : ring.points.ceiling (hash key) = none := grows.firstWhere_eq_none hceiling
    rw [none_before, Option.none_or, Option.none_or]
    cases hfirst : grown.points.firstKeyValue with
    | some entry =>
      rcases grows.firstWhere_eq_some hfirst with rfl | same
      · exact .inr rfl
      · rw [BTreeMap.firstKeyValue, same]
        exact .inl rfl
    | none =>
      have empty : ring.points.firstKeyValue = none := grows.firstWhere_eq_none hfirst
      rw [empty]
      exact .inl rfl

/-- Adding a node moves keys to that node only, and every lookup gives a node of the ring. -/
theorem new_nodeFor (hash : String → UInt64) (nodeCount : Nat) (virtualNodes : UInt16)
    (key : String) :
    ((new hash (nodeCount + 1) virtualNodes).nodeFor hash key =
        (new hash nodeCount virtualNodes).nodeFor hash key ∨
      (new hash (nodeCount + 1) virtualNodes).nodeFor hash key = nodeCount) ∧
    (1 ≤ nodeCount → (new hash nodeCount virtualNodes).nodeFor hash key < nodeCount) := by
  constructor
  · apply nodeFor_of_extends
    change BTreeMap.Extends (placeAll hash nodeCount virtualNodes)
      (placeAll hash (nodeCount + 1) virtualNodes) nodeCount
    rw [placeAll_succ]
    exact place_extends hash virtualNodes _ nodeCount
  · intro nonempty
    let ring := new hash nodeCount virtualNodes
    have positive : 0 < ring.nodeCount := nonempty
    exact nodeFor_lt positive

/-- Three nodes whose points collide one by one, so that the last node has taken them all: growing the
ring by a fourth one moves the key there. -/
theorem colliding_points_found :
    let hash : String → UInt64 := fun key => .ofNat key.length
    (new hash 3 12).nodeFor hash "key" < 3 ∧ (new hash 4 12).nodeFor hash "key" = 3 := by
  intro hash
  have before : (new hash 3 12).nodeFor hash "key" < 3 := (new_nodeFor hash 3 12 "key").2 (by decide)
  refine ⟨before, (new_nodeFor hash 3 12 "key").1.resolve_left ?_⟩
  decide +kernel

end ConsistentHashRing
end RbatisCache.Memcached
