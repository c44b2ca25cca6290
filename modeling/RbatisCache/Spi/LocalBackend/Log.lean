import RbatisCache.Spi.LocalBackend.Expiry

/-! The log of a backend: all writes and hits of its keys, and all that was subtracted from their
access counts. It is auxiliary: no operation reads it. -/
namespace RbatisCache.LocalBackend

/-- What the eviction policies take account of. -/
inductive Event where
  | wrote (key : String)
  | hit (key : String)
  | levelled (least : Nat)

/-- The latest event comes first. -/
abbrev Log := List Event

/-- The number of writes and hits. -/
def stamps : Log → Nat
  | [] => 0
  | .levelled _ :: log => stamps log
  | .wrote _ :: log | .hit _ :: log => stamps log + 1

/-- When such an event last happened, as the number of writes and hits before. -/
def lastTime (such : Event → Bool) : Log → Option Nat
  | [] => none
  | event :: log => if such event then some (stamps log) else lastTime such log

def Event.isWrite (key : String) : Event → Bool
  | .wrote k => k == key
  | .hit _ | .levelled _ => false

def Event.isUse (key : String) : Event → Bool
  | .wrote k | .hit k => k == key
  | .levelled _ => false

/-- When a key was last written. -/
def lastWrite (key : String) : Log → Option Nat := lastTime (Event.isWrite key)

/-- When a key was last written or hit. -/
def lastUse (key : String) : Log → Option Nat := lastTime (Event.isUse key)

/-- The hits of a key since it was last written. -/
def hitsSince (key : String) : Log → Nat
  | [] => 0
  | .wrote k :: log => if k = key then 0 else hitsSince key log
  | .hit k :: log => if k = key then hitsSince key log + 1 else hitsSince key log
  | .levelled _ :: log => hitsSince key log

/-- What was subtracted from the access count of a key since it was last written. -/
def subtractedSince (key : String) : Log → Nat
  | [] => 0
  | .wrote k :: log => if k = key then 0 else subtractedSince key log
  | .hit _ :: log => subtractedSince key log
  | .levelled least :: log => subtractedSince key log + least

def accesses (key : String) (log : Log) : Nat := hitsSince key log - subtractedSince key log

/-- The first of two times comes before the second. -/
def Earlier (a b : Option Nat) : Prop := ∃ i ∈ a, ∃ j ∈ b, i < j

/-- The order in which a strategy evicts. -/
def Precedes (log : Log) (j k : String) : EvictionStrategy → Prop
  | .fifo => Earlier (lastWrite j log) (lastWrite k log)
  | .lru => Earlier (lastUse j log) (lastUse k log)
  | .lfu => accesses j log < accesses k log ∨
      accesses j log = accesses k log ∧ Earlier (lastWrite j log) (lastWrite k log)

/-! ### The log of a history -/

/-- One victim selection of the eviction loop. -/
structure Round where
  entries : DashMap String Entry
  victim : String

/-- What a victim selection does to the access counts. -/
def levels (strategy : EvictionStrategy) (entries : DashMap String Entry) : Log :=
  match strategy with
  | .lfu => [.levelled ((entries.entries.map fun e => e.2.accesses.toNat).min?.getD 0)]
  | .fifo | .lru => []

/-- The victim selections of `evictLoop`. -/
def loopRounds (strategy : EvictionStrategy) (max : Nat) : Nat → DashMap String Entry → List Round
  | 0, _ => []
  | rounds + 1, entries =>
    if entries.len < max then []
    else match victimKey strategy entries with
      | (levelled, some k) => ⟨entries, k⟩ :: loopRounds strategy max rounds (levelled.erase k)
      | (_, none) => []

/-- The victim selections of `evictIfNeeded`. -/
def evictionRounds (now : UInt64) (b : LocalBackend) : List Round :=
  match b.config.maxEntries with
  | none => []
  | some max =>
    if b.entries.len < max then []
    else loopRounds b.config.eviction max (b.prune now).entries.len (b.prune now).entries

/-- The log after some victim selections. -/
def logRounds (strategy : EvictionStrategy) : List Round → Log → Log
  | [], log => log
  | r :: rest, log => logRounds strategy rest (levels strategy r.entries ++ log)

/-- The key under which a tick stores something. -/
def Tick.writes (blake3 : Bytes → String) (t : Tick) : Option String :=
  match t.activity with
  | .call (.put key _ _) => some (entryKey key)
  | .call (.bumpGeneration n) => some (generationKey blake3 n)
  | _ => none

def Tick.rounds (blake3 : Bytes → String) (t : Tick) (b : LocalBackend) : List Round :=
  match t.writes blake3 with
  | some _ => b.evictionRounds t.now
  | none => []

/-- The key that a tick hits. -/
def Tick.hit (t : Tick) (b : LocalBackend) : Option String :=
  match t.activity with
  | .call (.get key) =>
    match (b.get key t.now).1 with
    | .ok (some _) => some (entryKey key)
    | _ => none
  | _ => none

/-- The log after a tick. -/
def Tick.log (blake3 : Bytes → String) (t : Tick) (b : LocalBackend) (log : Log) : Log :=
  (t.writes blake3).toList.map .wrote ++ (t.hit b).toList.map .hit ++
    logRounds b.config.eviction (t.rounds blake3 b) log

def logOf (blake3 : Bytes → String) (config : LocalBackendConfig) : List Tick → Log
  | [] => []
  | t :: earlier => t.log blake3 (after blake3 config earlier) (logOf blake3 config earlier)

/-! ### Facts about logs -/

section
variable {key j k : String} {log : Log} {i : Nat} {such such' : Event → Bool}

theorem lastTime_cons_false {such : Event → Bool} {event : Event} (h : such event = false) :
    lastTime such (event :: log) = lastTime such log := by
  rw [lastTime, h, if_neg Bool.false_ne_true]

theorem lastTime_cons_true {such : Event → Bool} {event : Event} (h : such event = true) :
    lastTime such (event :: log) = some (stamps log) := by
  rw [lastTime, h, if_pos rfl]

private theorem lastTime_lt (never : ∀ least, such (.levelled least) = false)
    (h : lastTime such log = some i) : i < stamps log := by
  induction log with
  | nil => cases h
  | cons event log ih =>
    rw [lastTime] at h
    split at h
    · next holds =>
      cases h
      cases event with
      | wrote | hit => exact Nat.lt_succ_self _
      | levelled least =>
        rw [never] at holds
        cases holds
    · cases event with
      | wrote | hit => exact Nat.lt_succ_of_lt (ih h)
      | levelled => exact ih h

/-- Different things do not happen at the same time. -/
theorem lastTime_ne (never : ∀ least, such (.levelled least) = false)
    (never' : ∀ least, such' (.levelled least) = false)
    (apart : ∀ event, such event = true → such' event = false) (h : lastTime such log = some i) :
    lastTime such' log ≠ some i := by
  intro h'
  induction log with
  | nil => cases h
  | cons event log ih =>
    rw [lastTime] at h h'
    split at h
    · next holds =>
      rw [apart event holds, if_neg Bool.false_ne_true] at h'
      cases h
      exact Nat.lt_irrefl _ (lastTime_lt never' h')
    · split at h'
      · cases h'
        exact Nat.lt_irrefl _ (lastTime_lt never h)
      · exact ih h h'

/-- No two keys are written at the same time. -/
theorem lastWrite_ne (different : j ≠ k) (h : lastWrite j log = some i) :
    lastWrite k log ≠ some i := by
  refine lastTime_ne (fun _ => rfl) (fun _ => rfl) (fun event holds => ?_) h
  cases event with
  | wrote l =>
    rw [Event.isWrite, beq_iff_eq] at holds
    subst holds
    exact beq_false_of_ne different
  | hit | levelled => rfl

/-- No two keys are used at the same time. -/
theorem lastUse_ne (different : j ≠ k) (h : lastUse j log = some i) : lastUse k log ≠ some i := by
  refine lastTime_ne (fun _ => rfl) (fun _ => rfl) (fun event holds => ?_) h
  cases event with
  | wrote l | hit l =>
    rw [Event.isUse, beq_iff_eq] at holds
    subst holds
    exact beq_false_of_ne different
  | levelled => rfl

theorem hitsSince_le (key : String) (log : Log) : hitsSince key log ≤ stamps log := by
  induction log with
  | nil => exact Nat.le_refl _
  | cons event log ih =>
    cases event with
    | wrote l | hit l =>
      simp only [hitsSince, stamps]
      split <;> omega
    | levelled => exact ih

private theorem stamps_levels (strategy : EvictionStrategy) (entries : DashMap String Entry)
    (log : Log) :
    stamps (levels strategy entries ++ log) = stamps log := by
  cases strategy with
  | lfu | fifo | lru => rfl

theorem stamps_logRounds (strategy : EvictionStrategy) (rounds : List Round) (log : Log) :
    stamps (logRounds strategy rounds log) = stamps log := by
  induction rounds generalizing log with
  | nil => rfl
  | cons r rest ih => rw [logRounds, ih, stamps_levels]

end
end RbatisCache.LocalBackend
