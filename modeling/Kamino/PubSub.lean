import Kamino.Frame
import Kamino.Glob
import Mathlib.Data.List.Sort

/-!
# The pub/sub registry

Subscriptions in an ordered map keyed by `(is_pattern, name, conn_id)`, each with a copy of the
sender its connection had when it was made, and the connections' senders by themselves.
-/

namespace Kamino

namespace PubSub

structure DeliveredMessage where
  channel : Bytes
  /-- The pattern's source, where a pattern subscription matched. -/
  pattern : Option Bytes
  payload : Bytes
  deriving DecidableEq

structure SubAck where
  channel : Bytes
  isPattern : Bool
  totalSubscriptions : ℕ
  deriving DecidableEq

/-- `(is_pattern, name, conn_id)`. -/
structure SubKey where
  isPattern : Bool
  name : Bytes
  connId : UInt64
  deriving DecidableEq

def SubKey.cmp : SubKey → SubKey → Ordering :=
  compareLex (compareOn SubKey.isPattern)
    (compareLex (compareOn SubKey.name) (compareOn SubKey.connId))

instance SubKey.transCmp : Std.TransCmp SubKey.cmp :=
  inferInstanceAs (Std.TransCmp (compareLex (compareOn SubKey.isPattern)
    (compareLex (compareOn SubKey.name) (compareOn SubKey.connId))))

instance SubKey.lawfulEqCmp : Std.LawfulEqCmp SubKey.cmp where
  eq_of_compare {a b} h := by
    simp only [SubKey.cmp, compareLex, compareOn, Ordering.then_eq_eq,
      Std.LawfulEqOrd.compare_eq_iff_eq] at h
    obtain ⟨hp, hn, hc⟩ := h
    cases a
    cases b
    simp_all

structure State (σ : Type*) where
  entries : Std.TreeMap SubKey σ SubKey.cmp
  senders : Std.TreeMap UInt64 σ

variable {σ ω : Type*}

def State.new : State σ := ⟨∅, ∅⟩

namespace State

def registerConn (s : State σ) (connId : UInt64) (sender : σ) : State σ :=
  { s with senders := s.senders.insert connId sender }

def cleanupConn (s : State σ) (connId : UInt64) : State σ where
  entries := s.entries.filter fun k _ => k.connId ≠ connId
  senders := s.senders.erase connId

def totalForConn (s : State σ) (connId : UInt64) : ℕ :=
  (s.entries.toList.filter fun e => e.1.connId = connId).length

/-- The loop over the names: one acknowledgement each, with the connection's total after it. -/
def ackEach (connId : UInt64) (isPattern : Bool) (act : Bytes → State σ → State σ) :
    List Bytes → State σ → List SubAck × State σ
  | [], s => ([], s)
  | name :: names, s =>
    let s₁ := act name s
    let (out, s₂) := ackEach connId isPattern act names s₁
    (⟨name, isPattern, s₁.totalForConn connId⟩ :: out, s₂)

def insertKey (sender : σ) (connId : UInt64) (isPattern : Bool) (raw : Bytes) (s : State σ) :
    State σ :=
  { s with entries := s.entries.insert ⟨isPattern, fromUtf8Lossy raw, connId⟩ sender }

def eraseKey (connId : UInt64) (isPattern : Bool) (name : Bytes) (s : State σ) : State σ :=
  { s with entries := s.entries.erase ⟨isPattern, name, connId⟩ }

def subscribeInner (s : State σ) (connId : UInt64) (items : List Bytes)
    (isPattern : Bool) : List SubAck × State σ :=
  match s.senders[connId]? with
  | none => ([], s)
  | some sender => ackEach connId isPattern (insertKey sender connId isPattern) items s

def subscribe (s : State σ) (connId : UInt64) (channels : List Bytes) : List SubAck × State σ :=
  s.subscribeInner connId channels false

def psubscribe (s : State σ) (connId : UInt64) (patterns : List Bytes) : List SubAck × State σ :=
  s.subscribeInner connId patterns true

/-- The names to unsubscribe: those given, or all the connection has of the kind. -/
def targets (s : State σ) (connId : UInt64) (isPattern : Bool) : Option (List Bytes) → List Bytes
  | some (item :: items) => (item :: items).map fromUtf8Lossy
  | _ => (s.entries.toList.filter fun e =>
      e.1.isPattern = isPattern ∧ e.1.connId = connId).map fun e => e.1.name

def unsubscribeInner (s : State σ) (connId : UInt64) (items : Option (List Bytes))
    (isPattern : Bool) : List SubAck × State σ :=
  let targets := s.targets connId isPattern items
  if targets = [] then ([⟨[], isPattern, s.totalForConn connId⟩], s)
  else ackEach connId isPattern (eraseKey connId isPattern) targets s

def unsubscribe (s : State σ) (connId : UInt64) (channels : Option (List Bytes)) :
    List SubAck × State σ :=
  s.unsubscribeInner connId channels false

def punsubscribe (s : State σ) (connId : UInt64) (patterns : Option (List Bytes)) :
    List SubAck × State σ :=
  s.unsubscribeInner connId patterns true

/-- `BTreeMap::range` with an exclusive upper bound. -/
def range (s : State σ) (lower upper : SubKey) : List (SubKey × σ) :=
  s.entries.toList.filter fun e =>
    (SubKey.cmp e.1 lower).isGE && (SubKey.cmp e.1 upper).isLT

/-- One loop of `publish_local`: a `try_send` for each key in the range that is `wanted`, and how
many of them the queues accepted. -/
def fanOut (trySend : σ → DeliveredMessage → ω → Bool × ω) (wanted : SubKey → Bool)
    (message : SubKey → DeliveredMessage) : List (SubKey × σ) → ℕ × ω → ℕ × ω
  | [], acc => acc
  | (k, sender) :: subs, (delivered, w) =>
    if wanted k then
      let (ok, w) := trySend sender (message k) w
      fanOut trySend wanted message subs (if ok then delivered + 1 else delivered, w)
    else fanOut trySend wanted message subs (delivered, w)

def publishLocal (trySend : σ → DeliveredMessage → ω → Bool × ω) (s : State σ)
    (channel payload : Bytes) (w : ω) : ℕ × ω :=
  let exact := s.range ⟨false, channel, 0⟩ ⟨false, channel, 0xFFFFFFFFFFFFFFFF⟩
  let patterns := s.range ⟨true, [], 0⟩ ⟨true, replacement, 0xFFFFFFFFFFFFFFFF⟩
  fanOut trySend (fun k => patternMatches k.name channel)
    (fun k => ⟨channel, some k.name, payload⟩) patterns
    (fanOut trySend (fun k => k.name = channel) (fun _ => ⟨channel, none, payload⟩) exact (0, w))

end State

inductive Call (σ : Type*) where
  | registerConn (connId : UInt64) (sender : σ)
  | cleanupConn (connId : UInt64)
  | subscribe (connId : UInt64) (channels : List Bytes)
  | psubscribe (connId : UInt64) (patterns : List Bytes)
  | unsubscribe (connId : UInt64) (channels : Option (List Bytes))
  | punsubscribe (connId : UInt64) (patterns : Option (List Bytes))

def State.apply (s : State σ) : Call σ → List SubAck × State σ
  | .registerConn connId sender => ([], s.registerConn connId sender)
  | .cleanupConn connId => ([], s.cleanupConn connId)
  | .subscribe connId channels => s.subscribe connId channels
  | .psubscribe connId patterns => s.psubscribe connId patterns
  | .unsubscribe connId channels => s.unsubscribe connId channels
  | .punsubscribe connId patterns => s.punsubscribe connId patterns

def run (calls : List (Call σ)) : State σ := calls.foldl (fun s c => (s.apply c).2) .new

end PubSub

end Kamino
