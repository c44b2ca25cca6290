import RbatisCache.CacheInterceptor.Lateness
import RbatisCache.Redis.Keyspace

/-! Several processes that share a Redis server, when replies get lost and commands come late. -/
namespace RbatisCache.Redis
open Interleaving CacheInterceptor

section
variable {P K N T : Type} [DecidableEq K] [DecidableEq N] [DecidableEq T] {X : Externals P}
variable {policy : CachePolicy} {config : RedisCacheConfig} {tasks : T → Task} {node : T → N}
variable {S : Server} {view : S.State → String → Option Item} {server : S.State}

/-- Over any server that does what is documented, whatever becomes of the commands and whichever breakers
are open: a call that asks for its generation after an invalidation has succeeded, in any process, returns
a payload that was read from the database after the write that was invalidated for. No namespace is
invalidated `2 ^ 64` times. -/
theorem processes_never_stale (documented : S.Documented view) (hash : Function.Injective X.blake3)
    (unused : Items.Unused X.blake3 config (view server)) (codec : X.RoundTrips)
    (fits : ∀ t request, tasks t = .getOrLoad request → request.key.Fits X.parser)
    {d : Config T Op (Op.Res P) (Cluster (backend K documented hash config) N T) (Reply P)}
    (run : Reaches (cluster (backend K documented hash config) P node) FewAsked
      (clusterInitial X policy tasks (connected K documented hash unused)) d)
    {call writer : T} {request : CacheRequest} (called : tasks call = .getOrLoad request)
    {g m : UInt64}
    (after : d.history.Precedes
      ⟨writer, .backend (.bumpGeneration request.key.nameSpace), .ok m⟩
      ⟨call, .backend (.generation request.key.nameSpace), .ok g⟩)
    {p : P} (returned : d.tasks call = .ret (.payload (.ok p))) :
    ∃ loader, d.history.Precedes ⟨writer, .databaseWrite, ()⟩ ⟨loader, .databaseRead, .ok p⟩ := by
  have empty : (lagging K documented hash config).abs (connected K documented hash unused) =
      ⟨.empty, []⟩ := congrArg (Remote.mk · []) unused.store_eq
  obtain ⟨late, obeys⟩ := late_of_run (L := lagging K documented hash config) codec empty run
  exact late.never_stale hash fits called after (obeys.returned returned)

/-- In whichever processes: the generations of a namespace that tasks are told never decrease, and an
invalidation that succeeds is told more than all that has been told before, unless a namespace is
invalidated `2 ^ 64` times. -/
theorem generations_rise (documented : S.Documented view) (hash : Function.Injective X.blake3)
    (unused : Items.Unused X.blake3 config (view server)) (codec : X.RoundTrips)
    {d : Config T Op (Op.Res P) (Cluster (backend K documented hash config) N T) (Reply P)}
    (run : Reaches (cluster (backend K documented hash config) P node) FewAsked
      (clusterInitial X policy tasks (connected K documented hash unused)) d)
    {n : String} {g m : UInt64} {a b : Interleaving.Event T Op (Op.Res P)} (order : d.history.Precedes a b)
    (before : Tells n g a) (after : Tells n m b) :
    g ≤ m ∧ (b.op = .backend (.bumpGeneration n) → g < m) := by
  have empty : (lagging K documented hash config).abs (connected K documented hash unused) =
      ⟨.empty, []⟩ := congrArg (Remote.mk · []) unused.store_eq
  exact (late_of_run (L := lagging K documented hash config) codec empty run).1.rises order before after

end

/-- Two calls in one process and a writer in another. -/
inductive Part where
  | early | writer | late
  deriving DecidableEq

def Part.task : Part → Task
  | .early | .late => .getOrLoad ⟨RbatisCache.Sample.keyInput, false⟩
  | .writer => .write "ns"

def Part.process : Part → Bool
  | .early | .late => false
  | .writer => true

abbrev Shared : CacheBackend := backend Bool Keyspace.documented RbatisCache.Sample.hash_injective {}

def Part.choice (part : Part) (before : List (Happening Keyspace.server)) (fate : Fate) (loaded : Bytes) :
    CacheInterceptor.Choice Shared Bytes :=
  ⟨⟨part.process, before, 5, 5, (5 : Nat), fate⟩, 5, .ok loaded⟩

def parts : Config Part Op (Op.Res Bytes) (Cluster Shared Bool Part) (Reply Bytes) :=
  clusterInitial RbatisCache.Sample.externals {} Part.task (connected Bool _ _ Keyspace.unused)

/-- The put of the early call comes late: after the invalidation, when the late call has begun. -/
def lateSchedule : List (Part × CacheInterceptor.Choice Shared Bytes) :=
  List.replicate 11 (.early, Part.early.choice [] .answered [7]) ++
    [(.early, Part.early.choice [] (.broken none .later) [7])] ++
    List.replicate 3 (.early, Part.early.choice [] .answered [7]) ++
    List.replicate 3 (.writer, Part.writer.choice [] .answered []) ++
    List.replicate 15 (.late, Part.late.choice [.arrived 0 (6 : Nat)] .answered [8])

private theorem part_fits (t : Part) (request : CacheRequest) (h : t.task = .getOrLoad request) :
    request.key.Fits RbatisCache.Sample.externals.parser := by
  cases t with
  | early | late =>
    cases h
    exact RbatisCache.Sample.keyInput_fits
  | writer => cases h

/-- A put that comes after an invalidation serves no later call. -/
theorem late_put_not_served : ∃ d : Config Part Op (Op.Res Bytes) (Cluster Shared Bool Part) (Reply Bytes),
    d.returned .late = some (.payload (.ok [8])) ∧ ∃ loader,
      d.history.Precedes ⟨.writer, .databaseWrite, ()⟩ ⟨loader, .databaseRead, .ok [8]⟩ := by
  obtain ⟨d, run, seen⟩ := play_observed (M := cluster Shared Bytes Part.process) (A := FewAsked)
    (c := parts) lateSchedule
    (fun d => decide (d.returned .late = some (.payload (.ok [8])) ∧ d.history.Precedes
      ⟨.writer, .backend (.bumpGeneration "ns"), .ok 1⟩ ⟨.late, .backend (.generation "ns"), .ok 1⟩))
    (by decide +kernel)
  obtain ⟨returned, after⟩ := of_decide_eq_true seen
  exact ⟨d, returned, processes_never_stale Keyspace.documented RbatisCache.Sample.hash_injective
    Keyspace.unused RbatisCache.Sample.externals_roundTrips part_fits run
    (show Part.late.task = _ from rfl) after (Config.returned_eq_some.mp returned)⟩

/-- The call before the invalidation has been told less. -/
theorem invalidation_rises : ∃ (d : Config Part Op (Op.Res Bytes) (Cluster Shared Bool Part)
    (Reply Bytes)) (g m : UInt64), d.returned .writer = some (.invalidated (.ok m)) ∧
    d.history.Precedes ⟨.early, .backend (.generation "ns"), .ok g⟩
      ⟨.writer, .backend (.bumpGeneration "ns"), .ok m⟩ ∧ g < m := by
  obtain ⟨d, run, seen⟩ := play_observed (M := cluster Shared Bytes Part.process) (A := FewAsked)
    (c := parts) lateSchedule
    (fun d => decide (d.returned .writer = some (.invalidated (.ok 1)) ∧ d.history.Precedes
      ⟨.early, .backend (.generation "ns"), .ok 0⟩ ⟨.writer, .backend (.bumpGeneration "ns"), .ok 1⟩))
    (by decide +kernel)
  obtain ⟨returned, order⟩ := of_decide_eq_true seen
  have rises := generations_rise Keyspace.documented RbatisCache.Sample.hash_injective Keyspace.unused
    RbatisCache.Sample.externals_roundTrips run order (.inl rfl) (.inr rfl)
  exact ⟨d, 0, 1, returned, order, rises.2 rfl⟩

end RbatisCache.Redis
