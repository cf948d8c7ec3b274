import Kamino.Lib.Runs
import Kamino.PubSub
import Mathlib.Data.Set.Card

/-!
# What the pub/sub registry is for

`Registry` is the registry as its callers see it: the sink each connection registered last, and the
set of subscriptions.
-/

namespace Kamino

namespace PubSub

open Runs List SubKey State Function

variable {σ : Type*}

def named (isPattern : Bool) (connId : UInt64) (names : List Bytes) : Set SubKey :=
  {k | k.isPattern = isPattern ∧ k.connId = connId ∧ k.name ∈ names}

variable {isPattern : Bool}

theorem mem_named {k : SubKey} {connId : UInt64} {names : List Bytes} :
    k ∈ named isPattern connId names ↔
      k.isPattern = isPattern ∧ k.connId = connId ∧ k.name ∈ names :=
  Iff.rfl

instance named.decidable (isPattern : Bool) (connId : UInt64) (names : List Bytes) :
    DecidablePred (· ∈ named isPattern connId names) := fun k =>
  inferInstanceAs (Decidable (k.isPattern = isPattern ∧ k.connId = connId ∧ k.name ∈ names))

structure Registry (σ : Type*) where
  /-- The sink a connection registered last, unless it has been cleaned up since. -/
  sink : UInt64 → Option σ
  subs : Set SubKey

namespace Registry

def new : Registry σ := ⟨fun _ => none, ∅⟩

def subscribe (r : Registry σ) (connId : UInt64) (items : List Bytes) (isPattern : Bool) :
    Registry σ :=
  if (r.sink connId).isSome then
    { r with subs := r.subs ∪ named isPattern connId (items.map fromUtf8Lossy) }
  else r

def unsubscribe (r : Registry σ) (connId : UInt64) (items : Option (List Bytes))
    (isPattern : Bool) : Registry σ :=
  { r with subs := r.subs \ {k | k.isPattern = isPattern ∧ k.connId = connId ∧
      (items.getD [] = [] ∨ k.name ∈ (items.getD []).map fromUtf8Lossy)} }

def apply (r : Registry σ) : Call σ → Registry σ
  | .registerConn connId sender => { r with sink := update r.sink connId (some sender) }
  | .cleanupConn connId =>
    ⟨update r.sink connId none, r.subs \ {k | k.connId = connId}⟩
  | .subscribe connId channels => r.subscribe connId channels false
  | .psubscribe connId patterns => r.subscribe connId patterns true
  | .unsubscribe connId channels => r.unsubscribe connId channels false
  | .punsubscribe connId patterns => r.unsubscribe connId patterns true

end Registry

def registry (calls : List (Call σ)) : Registry σ := calls.foldl Registry.apply .new

variable {items : Option (List Bytes)} {a b : SubKey}

/-! ### The map refines the registry -/

namespace State

variable {s : State σ} {k : SubKey} {connId : UInt64} {isPattern : Bool}

theorem cmp_eq_iff : cmp a b = .eq ↔ a = b :=
  Std.LawfulEqCmp.compare_eq_iff_eq

theorem mem_toList {e : SubKey × σ} : e ∈ s.entries.toList ↔ s.entries[e.1]? = some e.2 :=
  Std.TreeMap.mem_toList_iff_getElem?_eq_some

theorem mem_entries : k ∈ s.entries ↔ ∃ sender, s.entries[k]? = some sender := by
  rw [Std.TreeMap.mem_iff_isSome_getElem?, Option.isSome_iff_exists]

theorem nodup_keys (s : State σ) : (s.entries.toList.map Prod.fst).Nodup := by
  refine pairwise_map.2 (Std.TreeMap.distinct_keys_toList.imp fun h heq => h ?_)
  exact cmp_eq_iff.2 heq

theorem mk_eq_iff {name : Bytes} : (⟨isPattern, name, connId⟩ : SubKey) = k ↔
    k.isPattern = isPattern ∧ k.connId = connId ∧ k.name = name := by
  cases k
  simp only [SubKey.mk.injEq]
  tauto

section Each

variable (act : Bytes → State σ → State σ)

theorem senders_ackEach (h : ∀ name s, (act name s).senders = s.senders) :
    ∀ (names : List Bytes) (s : State σ),
      (ackEach connId isPattern act names s).2.senders = s.senders
  | [], _ => rfl
  | name :: names, s => (senders_ackEach h names (act name s)).trans (h name s)

variable {act}

/-- A loop that stores `v` under each name's key. -/
theorem entries_ackEach {key : Bytes → Bytes} {v : Option σ}
    (h : ∀ name s, (act name s).entries[k]? =
      if ⟨isPattern, key name, connId⟩ = k then v else s.entries[k]?) :
    ∀ (names : List Bytes) (s : State σ), (ackEach connId isPattern act names s).2.entries[k]? =
      if k ∈ named isPattern connId (names.map key) then v else s.entries[k]?
  | [], s => by simp [ackEach, named]
  | name :: names, s => by
    rw [ackEach]
    dsimp only
    rw [entries_ackEach h names, h]
    simp only [mk_eq_iff, mem_named, map_cons, mem_cons]
    split_ifs <;> tauto

theorem entries_subscribed (sender : σ) (items : List Bytes) :
    (ackEach connId isPattern (insertKey sender connId isPattern) items s).2.entries[k]? =
      if k ∈ named isPattern connId (items.map fromUtf8Lossy) then some sender
      else s.entries[k]? := by
  refine entries_ackEach (fun name s => ?_) items s
  simp only [insertKey, Std.TreeMap.getElem?_insert, cmp_eq_iff]

theorem entries_unsubscribed (names : List Bytes) :
    (ackEach connId isPattern (eraseKey connId isPattern) names s).2.entries[k]? =
      if k ∈ named isPattern connId names then none else s.entries[k]? := by
  have hstep (name : Bytes) (s : State σ) : (eraseKey connId isPattern name s).entries[k]? =
      if ⟨isPattern, id name, connId⟩ = k then none else s.entries[k]? := by
    simp only [eraseKey, Std.TreeMap.getElem?_erase, cmp_eq_iff, id_eq]
  rw [entries_ackEach hstep, map_id]

@[simp] theorem senders_subscribed (sender : σ) (items : List Bytes) :
    (ackEach connId isPattern (insertKey sender connId isPattern) items s).2.senders = s.senders :=
  senders_ackEach (insertKey sender connId isPattern) (fun _ _ => rfl) items s

@[simp] theorem senders_unsubscribed (names : List Bytes) :
    (ackEach connId isPattern (eraseKey connId isPattern) names s).2.senders = s.senders :=
  senders_ackEach (eraseKey connId isPattern) (fun _ _ => rfl) names s

end Each

theorem entries_cleanupConn : (s.cleanupConn connId).entries[k]? =
    if k.connId = connId then none else s.entries[k]? := by
  ext sender
  rw [← mem_toList (e := (k, sender)), cleanupConn, Std.TreeMap.toList_filter, mem_filter,
    mem_toList]
  split_ifs with h <;> simp [h]

theorem mem_targets (hk : k ∈ s.entries) (hp : k.isPattern = isPattern) (hc : k.connId = connId) :
    k.name ∈ s.targets connId isPattern items ↔
      items.getD [] = [] ∨ k.name ∈ (items.getD []).map fromUtf8Lossy := by
  have hall : k.name ∈ (s.entries.toList.filter fun e =>
      e.1.isPattern = isPattern ∧ e.1.connId = connId).map fun e => e.1.name := by
    obtain ⟨sender, h⟩ := mem_entries.1 hk
    refine mem_map.2 ⟨(k, sender), mem_filter.2 ⟨mem_toList.2 h, ?_⟩, rfl⟩
    simp [hp, hc]
  rcases items with _ | _ | ⟨item, items⟩
  · simpa [targets] using hall
  · simpa [targets] using hall
  · simp [targets]

theorem unsubscribeInner_snd : (s.unsubscribeInner connId items isPattern).2 =
      (ackEach connId isPattern (eraseKey connId isPattern)
        (s.targets connId isPattern items) s).2 := by
  unfold unsubscribeInner
  simp only []
  split_ifs with h
  · rw [h]
    rfl
  · rfl

end State

/-- The map's keys and senders are the registry's subscriptions and sinks. -/
structure Refines (s : State σ) (r : Registry σ) : Prop where
  sink : ∀ connId, s.senders[connId]? = r.sink connId
  subs : ∀ k, k ∈ s.entries ↔ k ∈ r.subs

namespace Refines

variable {s : State σ} {r : Registry σ} {connId : UInt64} {isPattern : Bool}

theorem new : Refines (new : State σ) Registry.new :=
  ⟨fun _ => by simp [State.new, Registry.new], fun _ => by simp [State.new, Registry.new]⟩

theorem subscribe (h : Refines s r) (items : List Bytes) :
    Refines (s.subscribeInner connId items isPattern).2 (r.subscribe connId items isPattern) := by
  have hsink := h.sink connId
  unfold subscribeInner Registry.subscribe
  rcases hs : s.senders[connId]? with _ | sender <;> rw [hs] at hsink
  · rw [← hsink]
    exact h
  rw [← hsink]
  refine ⟨fun c => ?_, fun k => ?_⟩
  · simpa using h.sink c
  · simp only [mem_entries, entries_subscribed, Option.isSome_some, if_true,
      Set.mem_union, ← h.subs]
    split_ifs with hk <;> simp [hk]

theorem unsubscribe (h : Refines s r) (items : Option (List Bytes)) :
    Refines (s.unsubscribeInner connId items isPattern).2
      (r.unsubscribe connId items isPattern) := by
  rw [unsubscribeInner_snd]
  refine ⟨fun c => ?_, fun k => ?_⟩
  · rw [senders_unsubscribed]
    exact h.sink c
  rw [mem_entries, entries_unsubscribed, Registry.unsubscribe, Set.mem_sdiff, ← h.subs]
  by_cases hk : k ∈ s.entries
  · obtain ⟨sender, hsender⟩ := mem_entries.1 hk
    have hname : k ∈ named isPattern connId (s.targets connId isPattern items) ↔
        k.isPattern = isPattern ∧ k.connId = connId ∧
          (items.getD [] = [] ∨ k.name ∈ (items.getD []).map fromUtf8Lossy) :=
      and_congr_right fun hp => and_congr_right fun hc => mem_targets hk hp hc
    split_ifs with hin
    · exact iff_of_false (by simp) fun hout => hout.2 (hname.1 hin)
    · exact iff_of_true ⟨sender, hsender⟩ ⟨hk, fun hout => hin (hname.2 hout)⟩
  · refine iff_of_false ?_ fun hout => hk hout.1
    rintro ⟨sender, hsender⟩
    split_ifs at hsender
    exact hk (State.mem_entries.2 ⟨sender, hsender⟩)

theorem apply (h : Refines s r) (call : Call σ) : Refines (s.apply call).2 (r.apply call) := by
  cases call with
  | registerConn connId sender =>
    refine ⟨fun c => ?_, h.subs⟩
    simp [State.apply, State.registerConn, Registry.apply, Std.TreeMap.getElem?_insert,
      update_apply, h.sink, eq_comm (a := c)]
  | cleanupConn connId =>
    refine ⟨fun c => ?_, fun k => ?_⟩
    · simp only [State.apply, State.cleanupConn, Registry.apply, Std.TreeMap.getElem?_erase,
        Std.LawfulEqCmp.compare_eq_iff_eq, update_apply, h.sink, eq_comm (a := c)]
    rw [State.apply, State.mem_entries, State.entries_cleanupConn, Registry.apply, Set.mem_sdiff,
      ← h.subs, mem_entries]
    by_cases hk : k.connId = connId
    · exact iff_of_false (by simp [hk]) fun hout => hout.2 hk
    · rw [if_neg hk]
      exact ⟨fun hin => ⟨hin, hk⟩, And.left⟩
  | subscribe connId channels => exact h.subscribe channels
  | psubscribe connId patterns => exact h.subscribe patterns
  | unsubscribe connId channels => exact h.unsubscribe channels
  | punsubscribe connId patterns => exact h.unsubscribe patterns

end Refines

/-- After any calls the registry is as its callers see it. -/
theorem refines_run (calls : List (Call σ)) : Refines (run calls) (registry calls) := by
  have hg : Guarded (fun (s : State σ) c => some (s.apply c).2) (fun _ _ => True) .new calls :=
    .of_forall (fun _ _ => trivial) calls new
  exact hg.foldl_rel (fun _ _ call h _ => h.apply call) Refines.new

/-! ### Delivery -/

/-- The subscription is to the channel, or to a pattern that matches it. -/
def SubKey.wanted (k : SubKey) (channel : Bytes) : Bool :=
  if k.isPattern then patternMatches k.name channel else k.name = channel

/-- What a subscription is sent for a message on the channel. -/
def SubKey.message (k : SubKey) (channel payload : Bytes) : DeliveredMessage :=
  ⟨channel, if k.isPattern then some k.name else none, payload⟩

/-- One delivery is attempted for each subscription that wants the channel, into the subscription's
sender, and no other. -/
def Exact (s : State σ) (subs : Set SubKey) (channel payload : Bytes)
    (attempts : List (σ × DeliveredMessage)) : Prop :=
  ∃ ks : List SubKey, ks.Nodup ∧ (∀ k, k ∈ ks ↔ k ∈ subs ∧ k.wanted channel) ∧
    (attempts.map fun a => (some a.1, a.2)).Perm
      (ks.map fun k => (s.entries[k]?, k.message channel payload))

/-- The range scans of `publish_local` reach the subscription: they end before the largest
connection id, and the scan of the patterns ends at U+FFFD. -/
def SubKey.Scanned (k : SubKey) : Prop :=
  if k.isPattern then compare k.name replacement = .lt ∨
    k.name = replacement ∧ k.connId ≠ 0xFFFFFFFFFFFFFFFF
  else k.connId ≠ 0xFFFFFFFFFFFFFFFF

instance SubKey.Scanned.decidable (k : SubKey) : Decidable k.Scanned :=
  inferInstanceAs (Decidable (if k.isPattern then _ else _))

/-- A `try_send` that writes its attempts down, whatever the queue says to them. -/
def logged (accepts : σ → DeliveredMessage → List (σ × DeliveredMessage) → Bool) (sender : σ)
    (m : DeliveredMessage) (log : List (σ × DeliveredMessage)) :
    Bool × List (σ × DeliveredMessage) :=
  (accepts sender m log, log ++ [(sender, m)])

section Delivery

variable {s : State σ} {channel payload : Bytes}
  {accepts : σ → DeliveredMessage → List (σ × DeliveredMessage) → Bool}

theorem fanOut_logged (wanted : SubKey → Bool) (message : SubKey → DeliveredMessage) :
    ∀ (subs : List (SubKey × σ)) (delivered : ℕ) (log : List (σ × DeliveredMessage)),
      (fanOut (logged accepts) wanted message subs (delivered, log)).2 =
        log ++ (subs.filter fun e => wanted e.1).map fun e => (e.2, message e.1)
  | [], _, log => by simp [fanOut]
  | (k, sender) :: subs, delivered, log => by
    rw [fanOut]
    by_cases hk : wanted k = true
    · rw [if_pos hk]
      simp only [logged]
      rw [fanOut_logged wanted message subs, filter_cons_of_pos (by exact hk)]
      simp
    · rw [if_neg hk, fanOut_logged wanted message subs, filter_cons_of_neg (by exact hk)]

theorem isLT_cmp : (SubKey.cmp a b).isLT = true ↔
    (a.isPattern = false ∧ b.isPattern = true) ∨ a.isPattern = b.isPattern ∧
      (compare a.name b.name = .lt ∨ a.name = b.name ∧ a.connId < b.connId) := by
  have hbool : ∀ p q : Bool, compare p q = .lt ↔ p = false ∧ q = true := by decide
  simp only [SubKey.cmp, compareLex, compareOn, Ordering.isLT_iff_eq_lt, Ordering.then_eq_lt,
    Std.LawfulEqOrd.compare_eq_iff_eq, Std.compare_eq_lt, hbool]

theorem isGE_cmp : (cmp a b).isGE = true ↔ ¬ (cmp a b).isLT = true := by
  cases cmp a b <;> decide

theorem lt_max_iff {c : UInt64} : c < 0xFFFFFFFFFFFFFFFF ↔ c ≠ 0xFFFFFFFFFFFFFFFF := by
  grind

theorem exact_scanned (channel : Bytes) (k : SubKey) : ((cmp k ⟨false, channel, 0⟩).isGE &&
      (cmp k ⟨false, channel, 0xFFFFFFFFFFFFFFFF⟩).isLT) = true ∧ k.name = channel ↔
    k.isPattern = false ∧ k.wanted channel = true ∧ k.Scanned := by
  rw [Bool.and_eq_true, isGE_cmp, isLT_cmp, isLT_cmp]
  cases hp : k.isPattern
  · have hzero : ¬ k.connId < 0 := by grind
    simp only [wanted, SubKey.Scanned, hp, lt_max_iff]
    by_cases hn : k.name = channel <;> simp [hn, hzero]
  · simp

theorem pattern_scanned (channel : Bytes) (k : SubKey) : ((cmp k ⟨true, [], 0⟩).isGE &&
      (cmp k ⟨true, replacement, 0xFFFFFFFFFFFFFFFF⟩).isLT) = true ∧
      patternMatches k.name channel = true ↔
    k.isPattern = true ∧ k.wanted channel = true ∧ k.Scanned := by
  rw [Bool.and_eq_true, isGE_cmp, isLT_cmp, isLT_cmp]
  cases hp : k.isPattern
  · simp
  have hzero : ¬ k.connId < 0 := by grind
  have hnil : compare k.name [] ≠ .lt := by cases k.name <;> simp [compare, List.compareLex]
  simp only [wanted, SubKey.Scanned, hp, lt_max_iff]
  simp [hzero, hnil, and_comm]

/-- The subscriptions that want the channel, and those of them that the scans reach. -/
def wanting (s : State σ) (channel : Bytes) : List (SubKey × σ) :=
  s.entries.toList.filter fun e => e.1.wanted channel

def reached (s : State σ) (channel : Bytes) : List (SubKey × σ) :=
  (wanting s channel).filter fun e => e.1.Scanned

theorem mem_reached {e : SubKey × σ} : e ∈ reached s channel ↔
    e ∈ s.entries.toList ∧ e.1.wanted channel = true ∧ e.1.Scanned := by
  simp [reached, wanting, and_comm (a := e.1.Scanned)]

theorem filter_range (s : State σ) (wanted : SubKey → Bool) {lower upper : SubKey}
    (h : ∀ k, ((cmp k lower).isGE && (cmp k upper).isLT) = true ∧ wanted k = true ↔
      k.isPattern = isPattern ∧ k.wanted channel = true ∧ k.Scanned) :
    (s.range lower upper).filter (fun e => wanted e.1) =
      (reached s channel).filter fun e => e.1.isPattern = isPattern := by
  rw [State.range, reached, wanting, filter_filter, filter_filter, filter_filter]
  refine filter_congr fun e _ => ?_
  rw [Bool.eq_iff_iff]
  simp only [Bool.and_eq_true, decide_eq_true_eq] at h ⊢
  have := h e.1
  tauto

theorem attempts_perm (s : State σ) (channel payload : Bytes)
    (accepts : σ → DeliveredMessage → List (σ × DeliveredMessage) → Bool) :
    (s.publishLocal (logged accepts) channel payload []).2.Perm
      ((reached s channel).map fun e => (e.2, e.1.message channel payload)) := by
  have hexact := filter_range s (fun k => k.name = channel) fun k =>
    (and_congr_right fun _ => decide_eq_true_iff).trans (exact_scanned channel k)
  have hpattern := filter_range s (fun k => patternMatches k.name channel) (pattern_scanned channel)
  have hsplit := (filter_append_perm (fun e : SubKey × σ => decide (e.1.isPattern = false))
    (reached s channel)).map fun e => (e.2, e.1.message channel payload)
  refine List.Perm.trans (List.Perm.of_eq ?_) hsplit
  unfold publishLocal
  simp only []
  rw [fanOut_logged, fanOut_logged, hexact, hpattern, map_append, nil_append]
  have hkind : (fun e : SubKey × σ => !decide (e.1.isPattern = false)) =
      fun e => decide (e.1.isPattern = true) := by
    funext e
    cases e.1.isPattern <;> rfl
  rw [hkind]
  congr 1 <;>
  · refine map_congr_left fun e he => ?_
    have := of_decide_eq_true (mem_filter.1 he).2
    simp [message, this]

theorem mem_wanting {k : SubKey} :
    k ∈ (wanting s channel).map Prod.fst ↔ k ∈ s.entries ∧ k.wanted channel = true := by
  simp [wanting, mem_entries]

theorem nodup_wanting : ((wanting s channel).map Prod.fst).Nodup :=
  (List.Sublist.map Prod.fst filter_sublist).nodup s.nodup_keys

theorem exact_iff {subs : Set SubKey} (hsubs : ∀ k, k ∈ s.entries ↔ k ∈ subs) :
    Exact s subs channel payload (s.publishLocal (logged accepts) channel payload []).2 ↔
      ∀ k ∈ subs, k.wanted channel = true → k.Scanned := by
  have hperm := attempts_perm s channel payload accepts
  constructor
  · rintro ⟨ks, hnodup, hks, hattempts⟩ k hk hwant
    -- as many are attempted as want the channel
    have hkeys : ks.Perm ((wanting s channel).map Prod.fst) := by
      rw [perm_ext_iff_of_nodup hnodup nodup_wanting]
      intro k
      rw [hks, mem_wanting, hsubs]
    have hlen : (reached s channel).length = (wanting s channel).length := by
      have h₁ := hperm.length_eq
      have h₂ := hattempts.length_eq
      have h₃ := hkeys.length_eq
      simp only [length_map] at h₁ h₂ h₃
      omega
    have hall : reached s channel = wanting s channel := filter_sublist.eq_of_length hlen
    obtain ⟨e, he, rfl⟩ := mem_map.1 (mem_wanting.2 ⟨(hsubs k).2 hk, hwant⟩)
    rw [← hall] at he
    exact (mem_reached.1 he).2.2
  · intro hscan
    have hall : reached s channel = wanting s channel := by
      refine filter_eq_self.2 fun e he => decide_eq_true ?_
      obtain ⟨hmem, hwant⟩ := mem_wanting.1 (mem_map_of_mem he)
      exact hscan e.1 ((hsubs e.1).1 hmem) hwant
    refine ⟨(wanting s channel).map Prod.fst, nodup_wanting, fun k => ?_, ?_⟩
    · rw [mem_wanting, hsubs]
    rw [hall] at hperm
    refine (hperm.map fun a => (some a.1, a.2)).trans (List.Perm.of_eq ?_)
    rw [map_map, map_map]
    refine map_congr_left fun e he => ?_
    have := mem_toList.1 (mem_filter.1 he).1
    simp [this]

end Delivery

/-- In every registry the calls can lead to, `publish_local` is exact on a channel just when no
subscription that wants it is one the range scans stop short of. -/
theorem publish_exact_iff (calls : List (Call σ))
    (accepts : σ → DeliveredMessage → List (σ × DeliveredMessage) → Bool)
    (channel payload : Bytes) :
    Exact (run calls) (registry calls).subs channel payload
        ((run calls).publishLocal (logged accepts) channel payload []).2 ↔
      ∀ k ∈ (registry calls).subs, k.wanted channel = true → k.Scanned :=
  exact_iff (refines_run calls).subs

/-- A connection subscribed to a pattern past U+FFFD gets nothing from a channel of that name. -/
theorem publish_misses_pattern :
    let emoji : Bytes := [0xF0, 0x9F, 0x8E, 0x89]
    let calls : List (Call Unit) := [.registerConn 1 (), .psubscribe 1 [emoji]]
    let attempts := ((run calls).publishLocal (logged fun _ _ _ => true) emoji [] []).2
    (⟨true, emoji, 1⟩ : SubKey) ∈ (registry calls).subs ∧ patternMatches emoji emoji = true ∧
      attempts = [] ∧ ¬ Exact (run calls) (registry calls).subs emoji [] attempts := by
  intro emoji calls attempts
  have hmem : (⟨true, emoji, 1⟩ : SubKey) ∈ (registry calls).subs :=
    .inr ⟨rfl, rfl, by decide⟩
  have hmatch : patternMatches emoji emoji = true := by decide +kernel
  refine ⟨hmem, hmatch, by decide +kernel, fun h => ?_⟩
  have := (exact_iff (refines_run calls).subs).1 h _ hmem hmatch
  revert this
  decide

/-! ### Sinks and acknowledgements -/

/-- Every subscription delivers into the sink its connection registered last, and so belongs to a
connection that is registered. -/
def Delivers (s : State σ) (r : Registry σ) : Prop :=
  ∀ (k : SubKey) sender, s.entries[k]? = some sender → r.sink k.connId = some sender

def Call.connId : Call σ → UInt64
  | .registerConn connId _ | .cleanupConn connId | .subscribe connId _ | .psubscribe connId _
  | .unsubscribe connId _ | .punsubscribe connId _ => connId

/-- The subscriptions as the first of a call's acknowledgements leave them. -/
def Call.acked (acks : List SubAck) (subs : Set SubKey) : Call σ → Set SubKey
  | .subscribe connId _ => subs ∪ named false connId (acks.map fun a => fromUtf8Lossy a.channel)
  | .psubscribe connId _ => subs ∪ named true connId (acks.map fun a => fromUtf8Lossy a.channel)
  | .unsubscribe connId _ => subs \ named false connId (acks.map SubAck.channel)
  | .punsubscribe connId _ => subs \ named true connId (acks.map SubAck.channel)
  | .registerConn _ _ | .cleanupConn _ => subs

def heldBy (connId : UInt64) (subs : Set SubKey) : Set SubKey := {k | k ∈ subs ∧ k.connId = connId}

/-- Each acknowledgement counts the subscriptions its connection then has. -/
def AcksRight (subs : Set SubKey) (call : Call σ) (acks : List SubAck) : Prop :=
  ∀ i ack, acks[i]? = some ack → ack.totalSubscriptions =
    (heldBy call.connId (call.acked (acks.take (i + 1)) subs)).ncard

/-- A connection that has subscriptions is not registered with another sink. -/
def KeepsSink (s : State σ) : Call σ → Prop
  | .registerConn connId sender =>
    (∀ k ∈ s.entries, k.connId ≠ connId) ∨ s.senders[connId]? = some sender
  | _ => True

section Acks

variable {s : State σ} {r : Registry σ} {connId : UInt64} {isPattern : Bool}

theorem totalForConn_eq {subs : Set SubKey} (hsubs : ∀ k, k ∈ s.entries ↔ k ∈ subs) :
    s.totalForConn connId = (heldBy connId subs).ncard := by
  have hnodup : ((s.entries.toList.filter fun e => e.1.connId = connId).map Prod.fst).Nodup :=
    (List.Sublist.map Prod.fst filter_sublist).nodup s.nodup_keys
  have hset : heldBy connId subs =
      ((s.entries.toList.filter fun e => e.1.connId = connId).map Prod.fst).toFinset := by
    ext k
    simp only [heldBy, ← hsubs, mem_entries, coe_toFinset, mem_map,
      mem_filter, mem_toList, decide_eq_true_eq]
    constructor
    · rintro ⟨⟨sender, hs⟩, hc⟩
      exact ⟨(k, sender), ⟨hs, hc⟩, rfl⟩
    · rintro ⟨e, ⟨hs, hc⟩, rfl⟩
      exact ⟨⟨e.2, hs⟩, hc⟩
  rw [hset, Set.ncard_coe_finset, toFinset_card_of_nodup hnodup, length_map]
  rfl

variable {ack : SubAck} {i : ℕ} {act : Bytes → State σ → State σ} {names : List Bytes}

theorem channel_ackEach : ∀ (names : List Bytes) (s : State σ),
    (ackEach connId isPattern act names s).1.map SubAck.channel = names
  | [], _ => rfl
  | name :: names, _ => congrArg (name :: ·) (channel_ackEach names _)

theorem total_ackEach (h : (ackEach connId isPattern act names s).1[i]? = some ack) :
    ack.totalSubscriptions = (ackEach connId isPattern act
      (names.take (i + 1)) s).2.totalForConn connId := by
  induction names generalizing s i with
  | nil => simp [ackEach] at h
  | cons name names ih =>
    rcases i with _ | i
    · simp only [ackEach, getElem?_cons_zero, Option.some.injEq] at h
      rw [← h]
      rfl
    · simp only [ackEach, getElem?_cons_succ] at h
      exact ih h

theorem acks_subscribe (h : Refines s r) {items : List Bytes}
    (hack : (s.subscribeInner connId items isPattern).1[i]? = some ack) :
    ack.totalSubscriptions = (heldBy connId (r.subs ∪ named isPattern connId
      (((s.subscribeInner connId items isPattern).1.take (i + 1)).map
        fun a => fromUtf8Lossy a.channel))).ncard := by
  unfold subscribeInner at hack ⊢
  rcases hs : s.senders[connId]? with _ | sender <;> rw [hs] at hack
  · simp at hack
  simp only [] at hack ⊢
  rw [total_ackEach hack]
  refine totalForConn_eq fun k => ?_
  rw [← comp_def fromUtf8Lossy SubAck.channel, ← map_map, map_take, channel_ackEach,
    Set.mem_union, ← h.subs, mem_entries, entries_subscribed, mem_entries,
    map_take]
  split_ifs with hk <;> simp [hk]

theorem acks_unsubscribe (h : Refines s r)
    (hack : (s.unsubscribeInner connId items isPattern).1[i]? = some ack) :
    ack.totalSubscriptions = (heldBy connId (r.subs \ named isPattern connId
      (((s.unsubscribeInner connId items isPattern).1.take (i + 1)).map
        SubAck.channel))).ncard := by
  unfold unsubscribeInner at hack ⊢
  simp only [] at hack ⊢
  split_ifs at hack ⊢ with hnone
  · -- the connection has nothing of the kind, so nothing is taken away
    obtain ⟨rfl, rfl⟩ : i = 0 ∧ ack = ⟨[], isPattern, s.totalForConn connId⟩ := by
      rcases i with _ | i <;> simp at hack
      exact ⟨rfl, hack.symm⟩
    refine totalForConn_eq fun k => ?_
    rw [h.subs, Set.mem_sdiff]
    refine (and_iff_left_of_imp fun hk hin => ?_).symm
    have hitems : items.getD [] = [] := by
      rcases items with _ | _ | ⟨item, items⟩
      · rfl
      · rfl
      · simp [targets] at hnone
    have hname := (mem_targets ((h.subs k).2 hk) hin.1 hin.2.1).2 (.inl hitems)
    rw [hnone] at hname
    cases hname
  · rw [total_ackEach hack]
    refine totalForConn_eq fun k => ?_
    rw [map_take, channel_ackEach, Set.mem_sdiff, ← h.subs, mem_entries,
      entries_unsubscribed, mem_entries]
    split_ifs with hk <;> simp [hk]

theorem acksRight (h : Refines s r) (call : Call σ) : AcksRight r.subs call (s.apply call).1 := by
  intro i ack hack
  cases call with
  | registerConn => simp [apply] at hack
  | cleanupConn => simp [apply] at hack
  | subscribe | psubscribe => exact acks_subscribe h hack
  | unsubscribe | punsubscribe => exact acks_unsubscribe h hack

end Acks

section Sinks

variable {s : State σ} {r : Registry σ}

theorem delivers_subscribe (h : Refines s r) (hd : Delivers s r) {connId : UInt64}
    (items : List Bytes) :
    Delivers (s.subscribeInner connId items isPattern).2 (r.subscribe connId items isPattern) := by
  intro k sender hs
  have hsink : (r.subscribe connId items isPattern).sink = r.sink := by
    unfold Registry.subscribe
    split_ifs <;> rfl
  rw [hsink]
  unfold subscribeInner at hs
  rcases hc : s.senders[connId]? with _ | sender' <;> rw [hc] at hs
  · exact hd k sender hs
  simp only [entries_subscribed] at hs
  split_ifs at hs with hk
  · rw [hk.2.1, ← h.sink, hc, hs]
  · exact hd k sender hs

theorem delivers_unsubscribe (hd : Delivers s r) {connId : UInt64} (items : Option (List Bytes)) :
    Delivers (s.unsubscribeInner connId items isPattern).2
      (r.unsubscribe connId items isPattern) := by
  intro k sender hs
  rw [unsubscribeInner_snd, entries_unsubscribed] at hs
  split_ifs at hs
  exact hd k sender hs

theorem delivers_apply_iff (h : Refines s r) (hd : Delivers s r) (call : Call σ) :
    Delivers (s.apply call).2 (r.apply call) ↔ KeepsSink s call := by
  cases call with
  | registerConn connId sender =>
    constructor
    · intro hd'
      by_cases hk : ∀ k ∈ s.entries, k.connId ≠ connId
      · exact .inl hk
      simp only [not_forall, not_not] at hk
      obtain ⟨k, hk, rfl⟩ := hk
      obtain ⟨sender', hs⟩ := mem_entries.1 hk
      refine .inr ?_
      have hnew := hd' k sender' hs
      simp only [Registry.apply, update_self] at hnew
      rw [hnew, h.sink]
      exact hd k sender' hs
    · intro hkeep k sender' hs
      have hold := hd k sender' hs
      simp only [Registry.apply]
      by_cases hc : k.connId = connId
      · rcases hkeep with hnone | hsame
        · exact absurd hc (hnone k (mem_entries.2 ⟨sender', hs⟩))
        · rw [hc, update_self, ← hsame, h.sink, ← hc]
          exact hold
      · rw [update_of_ne hc]
        exact hold
  | cleanupConn connId =>
    refine iff_of_true (fun k sender hs => ?_) trivial
    rw [apply, entries_cleanupConn] at hs
    split_ifs at hs with hc
    simp only [Registry.apply]
    rw [update_of_ne hc]
    exact hd k sender hs
  | subscribe connId items | psubscribe connId items =>
    exact iff_of_true (delivers_subscribe h hd items) trivial
  | unsubscribe connId items | punsubscribe connId items =>
    exact iff_of_true (delivers_unsubscribe hd items) trivial

def State.view (s : State σ) : Registry σ := ⟨fun connId => s.senders[connId]?, {k | k ∈ s.entries}⟩

theorem refines_view (s : State σ) : Refines s s.view := ⟨fun _ => rfl, fun _ => Iff.rfl⟩

theorem Refines.delivers_iff (h : Refines s r) : Delivers s r ↔ Delivers s s.view := by
  simp only [Delivers, view, h.sink]

end Sinks

/-- In every run, each state has its subscriptions on registered connections and their last sinks
and each acknowledgement counts right, just when no connection is registered with another sink
while it has subscriptions. -/
theorem consistent_iff (calls : List (Call σ)) :
    (∀ pre, pre <+: calls → Delivers (run pre) (registry pre)) ∧
      (∀ pre call, pre ++ [call] <+: calls →
        AcksRight (registry pre).subs call ((run pre).apply call).1) ↔
      Guarded (fun s call => some (apply s call).2) KeepsSink new calls := by
  have hstep : ∀ (s : State σ) call, Delivers s s.view →
      (Delivers (s.apply call).2 (s.apply call).2.view ↔ KeepsSink s call) := fun s call hd =>
    ((refines_view s).apply call).delivers_iff.symm.trans
      (delivers_apply_iff (refines_view s) hd call)
  have hnew : Delivers (new : State σ) new.view := fun k sender hs => by
    simp [new] at hs
  rw [← forall_prefix_iff_guarded hstep hnew]
  constructor
  · rintro ⟨hd, -⟩ pre hpre
    exact (refines_run pre).delivers_iff.1 (hd pre hpre)
  · intro hd
    exact ⟨fun pre hpre => (refines_run pre).delivers_iff.2 (hd pre hpre),
      fun pre call _ => acksRight (refines_run pre) call⟩

/-- A connection registered again keeps its old sink in the subscriptions it has. -/
theorem delivers_into_old_sink :
    let calls : List (Call ℕ) := [.registerConn 1 10, .subscribe 1 [[0x61]], .registerConn 1 20]
    (run calls).entries[(⟨false, [0x61], 1⟩ : SubKey)]? = some 10 ∧
      (registry calls).sink 1 = some 20 ∧ ¬ Delivers (run calls) (registry calls) := by
  intro calls
  have hold : (run calls).entries[(⟨false, [0x61], 1⟩ : SubKey)]? = some 10 := by decide +kernel
  refine ⟨hold, rfl, fun h => ?_⟩
  have : some 20 = some 10 := h _ _ hold
  cases this

end PubSub

end Kamino
