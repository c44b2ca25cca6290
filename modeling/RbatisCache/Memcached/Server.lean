import RbatisCache.Memcached.Expiration
import RbatisCache.Spi.Lagging

/-! The clients of a memcached server of which only its documentation is known. Every call is one message
or two; a message, or the reply to it, may get lost, and a message may arrive when its client has given
up. -/
namespace RbatisCache.Memcached
open Interleaving
open Interleaving.Prog (perform)

inductive Message where
  | counter (op : Op)
  | set (command : SetCommand)
  | get (key : String)

@[reducible] def Message.Res : Message → Type
  | .counter op => op.Res
  | .set _ => Except String Unit
  | .get _ => Except String (Option Bytes)

/-- `CompressorTranscoder`. -/
structure CompressorTranscoder where
  encode : Bytes → Except String Bytes
  decode : Bytes → Except String Bytes

/-- What has been compressed is decompressed to what it was. -/
def CompressorTranscoder.RoundTrips (transcoder : CompressorTranscoder) : Prop :=
  ∀ value, ∃ compressed, transcoder.encode value = .ok compressed ∧
    transcoder.decode compressed = .ok value

/-- What the clients share. -/
structure MemcachedCacheBackend where
  blake3 : Bytes → String
  transcoder : CompressorTranscoder
  config : MemcachedConfiguration
  wrapper : MemcachedClientWrapper

namespace MemcachedCacheBackend
variable (self : MemcachedCacheBackend)

/-- What `put_object` sends of a value. -/
def packed (value : Bytes) : Bytes :=
  if self.wrapper.compression then
    match self.transcoder.encode value with
    | .ok compressed => compressed
    | .error _ => value
  else value

/-- What `get_object` makes of what it receives. -/
def unpacked (value : Option Bytes) : Option Bytes :=
  match value with
  | none => none
  | some bytes =>
    if self.wrapper.compression then
      match self.transcoder.decode bytes with
      | .ok decoded => some decoded
      | .error _ => none
    else some bytes

def getObject (key : String) : Prog Message Message.Res (Except String (Option Bytes)) := do
  match ← perform (Message.get key) with
  | .error e => return .error e
  | .ok value => return .ok (self.unpacked value)

def get (key : String) : Prog Message Message.Res (Except CacheError (Option Bytes)) := do
  match ← self.getObject (entryKey self.config key) with
  | .error e => return .error (.backend e)
  | .ok value => return .ok value

/-- A call, with what it is answered. -/
def program : BackendOp → Prog Message Message.Res (Sigma BackendOp.Res)
  | .get key => do return ⟨.get key, ← self.get key⟩
  | .put key value ttl => do
    let stored := put self.transcoder.encode self.config self.wrapper key value ttl
    return ⟨.put key value ttl, ← stored.lift Message.set fun _ r => r⟩
  | .generation n => do
    return ⟨.generation n, ← (generation self.blake3 self.config n).lift Message.counter fun _ r => r⟩
  | .bumpGeneration n => do
    let bumped := bumpGeneration self.blake3 self.config n
    return ⟨.bumpGeneration n, ← bumped.lift Message.counter fun _ r => r⟩

end MemcachedCacheBackend

/-- What the server holds under a key: a number as an `add` has written it, or what has been set. -/
inductive Item where
  | number (n : UInt64)
  | bytes (payload : Bytes)
  deriving DecidableEq

/-- What is read of it as text. -/
def Item.payload : Item → Bytes
  | .number n => utf8 (toString n)
  | .bytes payload => payload

abbrev Items := String → Option Item

def Op.key : Op → String
  | .add key _ | .increment key _ | .get key => key

def Message.key : Message → String
  | .counter op => op.key
  | .set command => command.key
  | .get key => key

/-- The server: what it does on a message, which may depend on more than the items, and on what happens
without one. -/
structure Server where
  State : Type
  Reaction : Type
  Incident : Type
  exec : Reaction → (m : Message) → State → m.Res × State
  befall : Incident → State → State

/-- An item stays, or it has been set and is gone. -/
def Lasts (before after : Option Item) : Prop :=
  after = before ∨ after = none ∧ ∃ payload, before = some (.bytes payload)

/-- What is documented of the server. Whatever it does, a number stays until a message for its key changes
it; what has been set may expire, or make room for something else. -/
structure Server.Documented (S : Server) (view : S.State → String → Option Item) : Prop where
  /-- A message changes the item at its key. -/
  elsewhere : ∀ re m s k, k ≠ m.key → Lasts (view s k) (view (S.exec re m s).2 k)
  befall : ∀ incident s k, Lasts (view s k) (view (S.befall incident s) k)
  add_absent : ∀ re k v s, view s k = none →
    view (S.exec re (.counter (.add k v)) s).2 k = some (.number v)
  add_present : ∀ re k v s, view s k ≠ none →
    Lasts (view s k) (view (S.exec re (.counter (.add k v)) s).2 k)
  /-- Numbers have 64 bits and wrap around. -/
  increment : ∀ re k amount s n, view s k = some (.number n) →
    ((S.exec re (.counter (.increment k amount)) s).1 = .ok (n + amount) ∧
      view (S.exec re (.counter (.increment k amount)) s).2 k = some (.number (n + amount))) ∨
    ∃ e, (S.exec re (.counter (.increment k amount)) s).1 = .error e ∧
      view (S.exec re (.counter (.increment k amount)) s).2 k = view s k
  getNumber : ∀ re k s, Lasts (view s k) (view (S.exec re (.counter (.get k)) s).2 k) ∧
    ∀ number, (S.exec re (.counter (.get k)) s).1 = .ok number →
      (view s k = none → number = none) ∧ ∀ n, view s k = some (.number n) → number = some n
  /-- A `set` that is refused may remove what it would replace. -/
  set : ∀ re command s,
    ((S.exec re (.set command) s).1 = .ok () ∧
      Lasts (some (.bytes command.payload)) (view (S.exec re (.set command) s).2 command.key)) ∨
    ∃ e, (S.exec re (.set command) s).1 = .error e ∧
      (view (S.exec re (.set command) s).2 command.key = view s command.key ∨
        view (S.exec re (.set command) s).2 command.key = none)
  get : ∀ re k s, Lasts (view s k) (view (S.exec re (.get k) s).2 k) ∧
    ∀ payload, (S.exec re (.get k) s).1 = .ok (some payload) →
      ∃ item, view s k = some item ∧ item.payload = payload

/-- What becomes of a message: without its reply the client has an error, and the server hears of it at
once, later or never. -/
inductive Fate where
  | answered
  | lost (error : String)
  | late (error : String)
  | unheard (error : String)
  deriving DecidableEq

/-- What happens without a call. A message on its way arrives some time, or never. -/
inductive Happening (S : Server) where
  | befell (incident : S.Incident)
  | arrived (position : Nat) (reaction : S.Reaction)
  | dropped (position : Nat)

/-- A server and the messages on their way to it, each with the task that has given it up. -/
structure Network (T : Type) (S : Server) where
  server : S.State
  due : List (T × Message)

/-- What a message does not decide itself. -/
structure Delivery (S : Server) where
  reaction : S.Reaction
  before : List (Happening S) := []
  fate : Fate := .answered

/-- What the client has instead of a reply. -/
def Message.failure (error : String) : (m : Message) → m.Res
  | .counter (.add _ _) | .counter (.increment _ _) | .counter (.get _) | .set _ | .get _ => .error error

namespace Network
variable {T : Type} {S : Server}

/-- The server hears of a message. -/
def hear (w : Network T S) (m : Message) (reaction : S.Reaction) : Network T S :=
  { w with server := (S.exec reaction m w.server).2 }

def happens (w : Network T S) : Happening S → Network T S
  | .befell incident => { w with server := S.befall incident w.server }
  | .arrived position reaction =>
    match w.due[position]? with
    | none => w
    | some (_, m) => { w.hear m reaction with due := w.due.eraseIdx position }
  | .dropped position => { w with due := w.due.eraseIdx position }

/-- A message of a task, as its fate has it. -/
def deliver (t : T) (m : Message) (reaction : S.Reaction) (w : Network T S) :
    Fate → m.Res × Network T S
  | .answered => ((S.exec reaction m w.server).1, w.hear m reaction)
  | .lost e => (m.failure e, w.hear m reaction)
  | .late e => (m.failure e, { w with due := (t, m) :: w.due })
  | .unheard e => (m.failure e, w)

end Network

def network (T : Type) (S : Server) : Machine T Message Message.Res (Delivery S) (Network T S) where
  perform t m ch w := some (Network.deliver t m ch.reaction (ch.before.foldl Network.happens w) ch.fate)

/-- Any number of clients of a server that may hold something already. -/
def clients {T : Type} {S : Server} (self : MemcachedCacheBackend) (calls : T → BackendOp)
    (server : S.State) : Config T Message Message.Res (Network T S) (Sigma BackendOp.Res) :=
  ⟨⟨server, []⟩, [], fun t => self.program (calls t)⟩

end RbatisCache.Memcached
