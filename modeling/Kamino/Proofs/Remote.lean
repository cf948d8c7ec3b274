import Kamino.Proofs.Forwarder
import Kamino.Remote

/-!
# Every call on a remote client's connection ends, and with its own reply

While neither task has failed what is in flight, the slot at the front of the in-flight queue is
that of the request which the next frame answers.
-/

namespace Kamino.Remote

open Function Runs Option List Writer

/-- The request the writer has taken and whose slot it has not pushed. -/
def Writer.hand : Writer → List Request
  | .got r | .passed r => [r]
  | _ => []

/-- The writer has failed what was in flight, and pushes nothing any more. -/
def Writer.Over : Writer → Prop
  | .cancelling | .returning | .stopped => True
  | _ => False

def Reader.unpopped : Reader → ℕ
  | .got _ => 1
  | _ => 0

def Reader.Failed : Reader → Prop
  | .cancelling | .stopped => True
  | _ => False

variable {result : Except RemoteError Resp.Frame} {call : CallState}

theorem CallState.receive_waiting (h : call.receive result = .waiting) : False := by
  cases call <;> cases h

theorem CallState.receive_sending (h : call.receive result = .sending) : call = .sending := by
  cases call <;> first | rfl | cases h

theorem CallState.receive_done {res : Except RemoteError Resp.Frame}
    (h : call.receive result = .done res) : call = .done res ∨ res = result := by
  cases call with
  | waiting => exact .inr (CallState.done.inj h).symm
  | done => exact .inl h
  | _ => cases h

variable {frames : ℕ}

namespace Conn

variable {answers : ℕ → Resp.Frame} {s s' : Conn}

variable {id : ℕ} {cmd : Resp.Command} {call : CallState} {slots : List ℕ} {frame : Resp.Frame}
  {writer : Writer} {reader : Reader}

theorem calls_answer (s : Conn) (slots : List ℕ) (result : Except RemoteError Resp.Frame)
    (h : (s.answer slots result).calls id = some (cmd, call)) :
    ∃ call', s.calls id = some (cmd, call') ∧
      call = if id ∈ slots then call'.receive result else call' := by
  simp only [answer] at h
  split_ifs at h with hmem
  · obtain ⟨⟨cmd', call'⟩, hc, heq⟩ := map_eq_some_iff.1 h
    cases heq
    exact ⟨call', hc, (if_pos hmem).symm⟩
  · exact ⟨call, h, (if_neg hmem).symm⟩

theorem waiting_of_answer {result : Except RemoteError Resp.Frame}
    (h : (s.answer slots result).calls id = some (cmd, .waiting)) :
    s.calls id = some (cmd, .waiting) ∧ id ∉ slots := by
  obtain ⟨call, hc, heq⟩ := s.calls_answer slots result h
  split_ifs at heq with hmem
  · exact (CallState.receive_waiting heq.symm).elim
  · exact ⟨heq ▸ hc, hmem⟩

theorem done_of_answer {result res : Except RemoteError Resp.Frame}
    (h : (s.answer slots result).calls id = some (cmd, .done res)) :
    s.calls id = some (cmd, .done res) ∨ id ∈ slots ∧ res = result := by
  obtain ⟨call, hc, heq⟩ := s.calls_answer slots result h
  split_ifs at heq with hmem
  · rcases CallState.receive_done heq.symm with rfl | rfl
    · exact .inl hc
    · exact .inr ⟨hmem, rfl⟩
  · exact .inl (heq ▸ hc)

/-- The call of a request, which is no longer on its way into the queue. -/
def Carries (calls : ℕ → Option (Resp.Command × CallState)) (r : Request) : Prop :=
  ∃ call, calls r.slot = some (r.cmd, call) ∧ call ≠ .sending

variable {r : Request}

theorem Carries.answer (h : Carries s.calls r) (slots : List ℕ)
    (result : Except RemoteError Resp.Frame) : Carries (s.answer slots result).calls r := by
  obtain ⟨call, hc, hne⟩ := h
  by_cases hmem : r.slot ∈ slots
  · refine ⟨call.receive result, ?_, fun hs => hne (CallState.receive_sending hs)⟩
    simp [Conn.answer, hmem, hc]
  · refine ⟨call, ?_, hne⟩
    simp [Conn.answer, hmem, hc]

variable {calls : ℕ → Option (Resp.Command × CallState)}

theorem of_update {id' : ℕ}
    {call call' : Resp.Command × CallState} (h : update calls id (some call) id' = some call') :
    id' = id ∧ call' = call ∨ calls id' = some call' := by
  by_cases heq : id' = id
  · rw [heq, update_self] at h
    exact .inl ⟨heq, (some.inj h).symm⟩
  · rw [update_of_ne heq] at h
    exact .inr h

theorem Carries.setCall (h : Carries s.calls r)
    {call' : CallState} (hid : s.calls id = some (cmd, call)) (hne : call' ≠ .sending) :
    Carries (s.setCall id cmd call').calls r := by
  obtain ⟨c, hc, hc'⟩ := h
  by_cases heq : r.slot = id
  · subst heq
    obtain ⟨rfl, -⟩ := Prod.mk.inj (some.inj (hid.symm.trans hc))
    exact ⟨call', update_self _ _ _, hne⟩
  · exact ⟨c, (update_of_ne heq _ _).trans hc, hc'⟩

def requests (s : Conn) : List Request := s.wire ++ (s.writer.hand ++ s.queue)

def Own (answers : ℕ → Resp.Frame) (wire : List Request) (slot : ℕ) (frame : Resp.Frame) : Prop :=
  ∃ n r, wire[n]? = some r ∧ r.slot = slot ∧ frame = answers n

theorem Own.append {wire : List Request} {slot : ℕ} (h : Own answers wire slot frame)
    (rs : List Request) : Own answers (wire ++ rs) slot frame := by
  obtain ⟨n, r, hn, hslot, hframe⟩ := h
  exact ⟨n, r, getElem?_append_of_some hn rs, hslot, hframe⟩

def Holds (s : Conn) (slot : ℕ) : Prop :=
  slot ∈ (s.writer.hand ++ s.queue).map (·.slot) ∨ slot ∈ s.inFlight ∨
    ∃ frame, s.reader = .holding slot frame

structure Inv (answers : ℕ → Resp.Frame) (s : Conn) : Prop where
  taken_le : s.taken ≤ s.wire.length
  nodup : (s.requests.map (·.slot)).Nodup
  carried : ∀ r ∈ s.requests, Carries s.calls r
  waits : ∀ id cmd, s.calls id = some (cmd, .waiting) → s.Holds id
  drained : s.writer.Over → s.inFlight = []
  emptied : s.writer = .stopped → s.queue = []
  aligned : ¬ s.reader.Failed → ¬ s.writer.Over →
    s.inFlight = (s.wire.map (·.slot)).drop (s.taken - s.reader.unpopped)
  got : ∀ frame, s.reader = .got frame → 0 < s.taken ∧ frame = answers (s.taken - 1)
  holding : ∀ slot frame, s.reader = .holding slot frame → Own answers s.wire slot frame
  own : ∀ id cmd frame, s.calls id = some (cmd, .done (.ok frame)) → Own answers s.wire id frame
  cancelled : s.reader = .stopped → s.cancelled = true

theorem Inv.init : Inv answers init where
  taken_le := le_rfl
  nodup := nodup_nil
  carried _ h := absurd h not_mem_nil
  waits _ _ h := by cases h
  drained _ := rfl
  emptied _ := rfl
  aligned _ _ := rfl
  got _ h := by cases h
  holding _ _ h := by cases h
  own _ _ _ h := by cases h
  cancelled h := by cases h

theorem Inv.recall (h : Inv answers s)
    {senders : Bool} (hcarried : ∀ r ∈ s.requests, Carries calls r)
    (hwaits : ∀ id cmd, calls id = some (cmd, .waiting) → s.calls id = some (cmd, .waiting))
    (hown : ∀ id cmd frame, calls id = some (cmd, .done (.ok frame)) →
      s.calls id = some (cmd, .done (.ok frame))) :
    Inv answers { s with calls, senders } where
  __ := h
  carried := hcarried
  waits id cmd hc := h.waits id cmd (hwaits id cmd hc)
  own id cmd frame hc := h.own id cmd frame (hown id cmd frame hc)

theorem Inv.discard (h : Inv answers s) {e : RemoteError} {queue : List Request} {cancelled : Bool}
    (hsub : (writer.hand ++ queue).Sublist (s.writer.hand ++ s.queue))
    (hdropped : ∀ r ∈ s.writer.hand ++ s.queue, r.slot ∈ slots ∨ r ∈ writer.hand ++ queue)
    (hover : writer.Over → s.inFlight = []) (hnot : ¬ writer.Over → ¬ s.writer.Over)
    (hstopped : writer = .stopped → queue = [])
    (hcancelled : s.cancelled = true → cancelled = true) :
    Inv answers { s.answer slots (.error e) with writer, queue, cancelled } where
  __ := h
  nodup := h.nodup.sublist ((hsub.append_left s.wire).map _)
  carried r hr := (h.carried r ((hsub.append_left s.wire).subset hr)).answer slots _
  waits id cmd hc := by
    obtain ⟨hwait, hslot⟩ := waiting_of_answer hc
    refine (h.waits id cmd hwait).imp_left fun hmem => ?_
    obtain ⟨r, hr, rfl⟩ := mem_map.1 hmem
    exact mem_map_of_mem ((hdropped r hr).resolve_left hslot)
  drained := hover
  emptied := hstopped
  aligned hr hw := h.aligned hr (hnot hw)
  own id cmd frame hc := by
    rcases done_of_answer hc with hc | ⟨-, hres⟩
    · exact h.own id cmd frame hc
    · cases hres
  cancelled hr := hcancelled (h.cancelled hr)

theorem answer_nil (s : Conn) (result : Except RemoteError Resp.Frame) :
    s.answer [] result = s := by
  simp [answer]

section

variable (h : Inv answers s)
include h

theorem Inv.advance {queue : List Request} {cancelled : Bool}
    (hsame : writer.hand ++ queue = s.writer.hand ++ s.queue)
    (hover : writer.Over → s.inFlight = []) (hnot : ¬ writer.Over → ¬ s.writer.Over)
    (hstopped : writer = .stopped → queue = [])
    (hcancelled : s.cancelled = true → cancelled = true) :
    Inv answers { s with writer, queue, cancelled } := by
  have hdropped : ∀ r ∈ s.writer.hand ++ s.queue, r.slot ∈ [] ∨ r ∈ writer.hand ++ queue :=
    fun r hr => .inr (hsame ▸ hr)
  have hnew := h.discard (e := .timeout) (hsame ▸ List.Sublist.refl _) hdropped hover hnot hstopped
    hcancelled
  rwa [answer_nil] at hnew

theorem Inv.enqueue (hid : s.calls id = some (cmd, .sending)) (hopen : s.writer ≠ .stopped) :
    Inv answers { s with
      calls := update s.calls id (some (cmd, .waiting)), queue := s.queue ++ [⟨id, cmd⟩] } := by
  have hnew : id ∉ s.requests.map (·.slot) := by
    intro hmem
    obtain ⟨r, hr, rfl⟩ := mem_map.1 hmem
    obtain ⟨call, hcall, hne⟩ := h.carried r hr
    rw [hid] at hcall
    cases hcall
    exact hne rfl
  have hreqs : s.wire ++ (s.writer.hand ++ (s.queue ++ [⟨id, cmd⟩])) =
      s.requests ++ [⟨id, cmd⟩] := by
    simp [requests]
  exact {
    __ := h
    nodup := by
      rw [requests, hreqs, map_append, nodup_append]
      refine ⟨h.nodup, nodup_singleton _, fun x hx y hy hxy => hnew ?_⟩
      obtain rfl : y = id := mem_singleton.1 hy
      exact hxy ▸ hx
    carried := fun r hr => by
      rw [requests, hreqs, mem_append, mem_singleton] at hr
      rcases hr with hr | rfl
      · exact (h.carried r hr).setCall hid (by simp)
      · exact ⟨.waiting, update_self _ _ _, by simp⟩
    waits := fun id' cmd' hc => by
      rcases of_update hc with ⟨rfl, -⟩ | hc
      · refine .inl ?_
        simp
      · refine (h.waits id' cmd' hc).imp_left fun hmem => ?_
        rw [← append_assoc, map_append]
        exact mem_append_left _ hmem
    emptied := fun hw => absurd hw hopen
    own := fun id' cmd' frame hc => by
      rcases of_update hc with ⟨-, heq⟩ | hc
      · cases heq
      · exact h.own id' cmd' frame hc }

theorem Inv.push (hw : s.writer = .passed r) : Inv answers { s with
      inFlight := s.inFlight ++ [r.slot], wire := s.wire ++ [r], writer := .writing } := by
  have hreqs : s.wire ++ [r] ++ ([] ++ s.queue) = s.requests := by
    simp [requests, hw, hand]
  exact {
    __ := h
    taken_le := by
      rw [length_append]
      exact h.taken_le.trans (Nat.le_add_right _ _)
    nodup := by
      have hnodup := h.nodup
      rwa [← hreqs] at hnodup
    carried := fun r' hr => h.carried r' (hreqs ▸ hr)
    waits := fun id cmd hc => by
      rcases h.waits id cmd hc with hmem | hmem | hread
      · rw [hw, hand, singleton_append, map_cons, mem_cons] at hmem
        rcases hmem with rfl | hmem
        · exact .inr (.inl (mem_append_right _ (mem_singleton_self _)))
        · exact .inl hmem
      · exact .inr (.inl (mem_append_left _ hmem))
      · exact .inr (.inr hread)
    drained := fun h => h.elim
    emptied := fun h => by cases h
    aligned := fun hr _ => by
      have hle : s.taken - s.reader.unpopped ≤ (s.wire.map (·.slot)).length := by
        rw [length_map]
        exact (Nat.sub_le _ _).trans h.taken_le
      rw [h.aligned hr (by rw [hw]; exact id), map_append, drop_append_of_le_length hle]
      rfl
    holding := fun slot frame hr => (h.holding slot frame hr).append [r]
    own := fun id cmd frame hc => (h.own id cmd frame hc).append [r] }

theorem Inv.failed (e : ConnError)
    (hhand : writer.hand = s.writer.hand) (hstopped : writer = .stopped → s.queue = [])
    (hpast : writer.Over ∨ reader.Failed) (hreader : reader = s.reader ∨ reader = .cancelling)
    (hhold : ∀ slot frame, s.reader = .holding slot frame → reader = s.reader) :
    Inv answers { s.failAll e with writer, reader } where
  taken_le := h.taken_le
  nodup := by
    have hnodup := h.nodup
    rw [requests, ← hhand] at hnodup
    exact hnodup
  carried r hr := by
    have hmem : r ∈ s.requests := by
      rw [requests, ← hhand]
      exact hr
    exact (h.carried r hmem).answer s.inFlight _
  waits id cmd hc := by
    obtain ⟨hwait, hslot⟩ := waiting_of_answer hc
    rcases h.waits id cmd hwait with hmem | hmem | ⟨frame, hread⟩
    · refine .inl ?_
      rw [← hhand] at hmem
      exact hmem
    · exact absurd hmem hslot
    · exact .inr (.inr ⟨frame, (hhold id frame hread).trans hread⟩)
  drained _ := rfl
  emptied := hstopped
  aligned hr hw := (hpast.elim hw hr).elim
  got frame hr := by
    rcases hreader with rfl | rfl
    · exact h.got frame hr
    · cases hr
  holding slot frame hr := by
    rcases hreader with rfl | rfl
    · exact h.holding slot frame hr
    · cases hr
  own id cmd frame hc := by
    rcases done_of_answer hc with hc | ⟨-, hres⟩
    · exact h.own id cmd frame hc
    · cases hres
  cancelled hr := by
    rcases hreader with rfl | rfl
    · exact h.cancelled hr
    · cases hr

theorem Inv.receive (hr : s.reader = .ready)
    (hnext : (reader = .got (answers s.taken) ∧ frames = 1 ∧ s.taken < s.wire.length) ∨
      (∃ e, reader = .failing e) ∧ frames = 0) :
    Inv answers { s with reader, taken := s.taken + frames } where
  __ := h
  taken_le := by
    rcases hnext with ⟨-, rfl, hlt⟩ | ⟨-, rfl⟩
    · exact hlt
    · exact h.taken_le
  waits id cmd hc := by
    rcases h.waits id cmd hc with hmem | hmem | ⟨frame, hread⟩
    · exact .inl hmem
    · exact .inr (.inl hmem)
    · rw [hr] at hread
      cases hread
  aligned _ hw := by
    have hin := h.aligned (by rw [hr]; exact id) hw
    rw [hr] at hin
    rcases hnext with ⟨rfl, rfl, -⟩ | ⟨⟨e, rfl⟩, rfl⟩
    · exact hin
    · exact hin
  got frame hg := by
    rcases hnext with ⟨rfl, rfl, -⟩ | ⟨⟨e, rfl⟩, rfl⟩
    · cases hg
      exact ⟨Nat.succ_pos _, rfl⟩
    · cases hg
  holding slot frame hg := by
    rcases hnext with ⟨rfl, -⟩ | ⟨⟨e, rfl⟩, -⟩ <;> cases hg
  cancelled hg := by
    rcases hnext with ⟨rfl, -⟩ | ⟨⟨e, rfl⟩, -⟩ <;> cases hg

theorem Inv.pop (hr : s.reader = .got frame) {slot : ℕ}
    {rest : List ℕ} (hin : s.inFlight = slot :: rest) :
    Inv answers { s with inFlight := rest, reader := .holding slot frame } := by
  have hover : ¬ s.writer.Over := fun hw => by
    rw [h.drained hw] at hin
    cases hin
  obtain ⟨hpos, rfl⟩ := h.got frame hr
  have hdrop := h.aligned (by rw [hr]; exact id) hover
  rw [hr, Reader.unpopped, hin] at hdrop
  exact {
    __ := h
    waits := fun id cmd hc => by
      rcases h.waits id cmd hc with hmem | hmem | ⟨frame, hread⟩
      · exact .inl hmem
      · rw [hin, mem_cons] at hmem
        rcases hmem with rfl | hmem
        · exact .inr (.inr ⟨_, rfl⟩)
        · exact .inr (.inl hmem)
      · rw [hr] at hread
        cases hread
    drained := fun hw => absurd hw hover
    aligned := fun _ _ => by
      have htail := congrArg tail hdrop
      rw [tail_cons, tail_drop] at htail
      rw [htail, Nat.sub_add_cancel hpos]
      rfl
    got := fun _ hg => by cases hg
    holding := fun slot' frame' hg => by
      cases hg
      have hhead := congrArg head? hdrop
      rw [head?_cons, head?_drop, getElem?_map] at hhead
      obtain ⟨r, hn, rfl⟩ := map_eq_some_iff.1 hhead.symm
      exact ⟨_, r, hn, rfl, rfl⟩
    cancelled := fun hg => by cases hg }

theorem Inv.deliver {slots : List ℕ} (frame : Resp.Frame)
    (hslots : ∀ slot ∈ slots, s.reader = .holding slot frame)
    (hread : ∀ slot f, s.reader = .holding slot f → slot ∈ slots) (hfailed : ¬ s.reader.Failed)
    (haligned : ¬ s.writer.Over → s.reader.unpopped = 0) :
    Inv answers { s.answer slots (.ok frame) with reader := .ready } where
  __ := h
  carried r hr := (h.carried r hr).answer slots _
  waits id cmd hc := by
    obtain ⟨hwait, hslot⟩ := waiting_of_answer hc
    rcases h.waits id cmd hwait with hmem | hmem | ⟨f, hf⟩
    · exact .inl hmem
    · exact .inr (.inl hmem)
    · exact absurd (hread id f hf) hslot
  aligned _ hw := by
    have hin := h.aligned hfailed hw
    rw [haligned hw] at hin
    exact hin
  got _ hg := by cases hg
  holding _ _ hg := by cases hg
  own id cmd f hc := by
    rcases done_of_answer hc with hc | ⟨hslot, hres⟩
    · exact h.own id cmd f hc
    · cases hres
      exact h.holding id frame (hslots id hslot)
  cancelled hg := by cases hg

theorem Inv.readerCancel (hr : s.reader = .cancelling) :
    Inv answers { s with cancelled := true, reader := .stopped } where
  __ := h
  waits id cmd hc := by
    rcases h.waits id cmd hc with hmem | hmem | ⟨frame, hread⟩
    · exact .inl hmem
    · exact .inr (.inl hmem)
    · rw [hr] at hread
      cases hread
  aligned hf _ := absurd trivial hf
  got _ hg := by cases hg
  holding _ _ hg := by cases hg
  cancelled _ := rfl

theorem Inv.setCall {call' : CallState} (hid : s.calls id = some (cmd, call))
    (hsending : call' ≠ .sending) (hwaiting : call' ≠ .waiting)
    (hok : ∀ frame, call' ≠ .done (.ok frame)) : Inv answers (s.setCall id cmd call') := by
  refine h.recall (fun r hr => (h.carried r hr).setCall hid hsending) (fun id' cmd' hc => ?_)
    fun id' cmd' frame hc => ?_
  · rcases of_update hc with ⟨-, heq⟩ | hc
    · exact absurd (Prod.mk.inj heq).2.symm hwaiting
    · exact hc
  · rcases of_update hc with ⟨-, heq⟩ | hc
    · exact absurd (Prod.mk.inj heq).2.symm (hok frame)
    · exact hc

theorem Inv.begin (hid : s.calls id = none) : Inv answers (s.setCall id cmd .sending) := by
  refine h.recall (fun r hr => ?_) (fun id' cmd' hc => ?_) fun id' cmd' frame hc => ?_
  · obtain ⟨call, hcall, hne⟩ := h.carried r hr
    have hother : r.slot ≠ id := fun heq => by
      rw [heq, hid] at hcall
      cases hcall
    exact ⟨call, (update_of_ne hother _ _).trans hcall, hne⟩
  · rcases of_update hc with ⟨-, heq⟩ | hc
    · cases heq
    · exact hc
  · rcases of_update hc with ⟨-, heq⟩ | hc
    · cases heq
    · exact hc

theorem Inv.enqueueStep (hs : s.enqueue id = some s') : Inv answers s' := by
  unfold Conn.enqueue at hs
  split at hs
  · rename_i hid _
    cases hs
    exact h.setCall hid (by simp) (by simp) (by simp)
  · rename_i hid hopen
    split_ifs at hs
    cases hs
    exact h.enqueue hid hopen
  · cases hs

theorem Inv.writerStep (hs : s.writerStep = some s') : Inv answers s' := by
  unfold Conn.writerStep at hs
  split at hs
  case h_1 hw =>
    cases hs
    split_ifs <;>
      exact h.advance (by rw [hw]; rfl) (fun h => h.elim) (by rw [hw]; exact id) (by simp) id
  case h_2 hw =>
    split at hs
    · rename_i r rest hq
      cases hs
      exact h.advance (by rw [hw, hq]; rfl) (fun h => h.elim) (by rw [hw]; exact id) (by simp) id
    · cases hs
      split_ifs <;>
        exact h.advance (by rw [hw]; rfl) (fun h => h.elim) (by rw [hw]; exact id) (by simp) id
  case h_3 r hw =>
    split_ifs at hs
    · cases hs
      refine h.discard (by rw [hw]; exact sublist_cons_self _ _) (fun r' hr => ?_)
        (fun h => h.elim) (by rw [hw]; exact id) (by simp) id
      rw [hw, hand, singleton_append, mem_cons] at hr
      rcases hr with rfl | hr
      · exact .inl (mem_singleton_self _)
      · exact .inr hr
    · cases hs
      exact h.advance (by rw [hw]; rfl) (fun h => h.elim) (by rw [hw]; exact id) (by simp) id
  case h_4 r hw =>
    cases hs
    exact h.push hw
  case h_5 hw =>
    cases hs
    exact h.advance (by rw [hw]; rfl) (fun h => h.elim) (by rw [hw]; exact id) (by simp) id
  case h_6 msg hw =>
    cases hs
    exact h.failed (.protocol msg) (by rw [hw]; rfl) (by simp) (.inl trivial) (.inl rfl)
      fun _ _ _ => rfl
  case h_7 hw =>
    cases hs
    exact h.advance (by rw [hw]; rfl) (fun _ => h.drained (by rw [hw]; trivial))
      (fun hnot => absurd trivial hnot) (by simp) fun _ => rfl
  case h_8 hw =>
    cases hs
    exact h.failed _ (by rw [hw]; rfl) (by simp) (.inl trivial) (.inl rfl) fun _ _ _ => rfl
  case h_9 hw =>
    cases hs
    refine h.discard (nil_sublist _) (fun r hr => .inl ?_)
      (fun _ => h.drained (by rw [hw]; trivial)) (fun hnot => absurd trivial hnot) (fun _ => rfl) id
    rw [hw] at hr
    exact mem_map_of_mem hr
  case h_10 => cases hs

theorem Inv.readerStep (hs : s.readerStep = some s') : Inv answers s' := by
  unfold Conn.readerStep at hs
  split at hs
  case h_1 frame hr =>
    split at hs
    · rename_i slot rest hin
      cases hs
      exact h.pop hr hin
    rename_i hin
    cases hs
    have hnone : ¬ s.writer.Over → s.reader.unpopped = 0 := fun hw => by
      have hpos := (h.got frame hr).1
      have hlen := congrArg length (h.aligned (by rw [hr]; exact id) hw)
      rw [hin, hr, length_drop, length_map, length_nil, Reader.unpopped] at hlen
      have := h.taken_le
      omega
    have hnew := h.deliver frame (fun _ hslot => absurd hslot not_mem_nil)
      (fun _ f hf => by rw [hr] at hf; cases hf) (by rw [hr]; exact id) hnone
    rwa [answer_nil] at hnew
  case h_2 slot frame hr =>
    cases hs
    refine h.deliver frame (fun slot' hslot => ?_) (fun slot' f hf => ?_) (by rw [hr]; exact id)
      fun _ => by rw [hr]; rfl
    · rw [mem_singleton.1 hslot]
      exact hr
    · rw [hr] at hf
      cases hf
      exact mem_singleton_self _
  case h_3 e hr =>
    cases hs
    exact h.failed e rfl h.emptied (.inr trivial) (.inr rfl) fun _ _ hf => by
      rw [hr] at hf
      cases hf
  case h_4 hr =>
    cases hs
    exact h.readerCancel hr
  case h_5 => cases hs
  case h_6 => cases hs

theorem Inv.receiveStep
    (hnext : (reader = .got (answers s.taken) ∧ frames = 1 ∧ s.taken < s.wire.length) ∨
      (∃ e, reader = .failing e) ∧ frames = 0)
    (hs : s.receive reader frames = some s') : Inv answers s' := by
  unfold Conn.receive at hs
  split at hs <;> cases hs
  rename_i hr
  exact h.receive hr hnext

/-- Every step keeps the slots in the order of the requests. -/
theorem Inv.step {e : Event} (hs : s.step answers e = some s') : Inv answers s' := by
  cases e with
  | call id cmd =>
    simp only [Conn.step] at hs
    split at hs
    · rename_i hid
      split_ifs at hs
      cases hs
      exact h.begin hid
    · cases hs
  | enqueue id => exact h.enqueueStep hs
  | abandon id =>
    simp only [Conn.step] at hs
    split at hs <;> cases hs
    · rename_i hid
      exact h.setCall hid (by simp) (by simp) (by simp)
    · rename_i hid
      exact h.setCall hid (by simp) (by simp) (by simp)
  | dropClient =>
    cases hs
    exact h.recall h.carried (fun _ _ => id) fun _ _ _ => id
  | writer => exact h.writerStep hs
  | writeError msg =>
    simp only [Conn.step] at hs
    split at hs <;> cases hs
    rename_i hw
    exact h.advance (by rw [hw]; rfl) (fun h => h.elim) (by rw [hw]; exact id) (by simp) id
  | frame =>
    simp only [Conn.step] at hs
    split_ifs at hs with hlt
    exact h.receiveStep (.inl ⟨rfl, rfl, hlt⟩) hs
  | decodeError msg => exact h.receiveStep (.inr ⟨⟨_, rfl⟩, rfl⟩) hs
  | serverClose => exact h.receiveStep (.inr ⟨⟨_, rfl⟩, rfl⟩) hs
  | reader => exact h.readerStep hs
  | idle =>
    cases hs
    exact h

theorem Inv.reply_own (hcall : s.calls id = some (cmd, .done (.ok frame))) :
    ∃ n, s.wire[n]? = some ⟨id, cmd⟩ ∧ frame = answers n ∧
      ∀ m r, s.wire[m]? = some r → r.slot = id → m = n := by
  obtain ⟨n, r, hn, rfl, hframe⟩ := h.own id cmd frame hcall
  have hmem : r ∈ s.requests := mem_append_left _ (mem_of_getElem? hn)
  obtain ⟨call, hcarried, -⟩ := h.carried r hmem
  rw [hcall] at hcarried
  obtain ⟨rfl, -⟩ := Prod.mk.inj (some.inj hcarried)
  refine ⟨n, hn, hframe, fun m r' hm hslot => ?_⟩
  have hnodup : (s.wire.map (·.slot)).Nodup :=
    h.nodup.sublist ((sublist_append_left _ _).map _)
  have hlt : m < (s.wire.map (·.slot)).length := by
    rw [List.length_map]
    exact (List.getElem?_eq_some_iff.1 hm).1
  refine (List.getElem?_inj hlt hnodup).1 ?_
  rw [List.getElem?_map, List.getElem?_map, hm, hn, map_some, map_some, hslot]

end

/-- Every run of a connection keeps the invariant. -/
theorem inv_exec {es : List Event} (h : exec (step · answers) init es = some s) : Inv answers s :=
  exec_invariant (fun _ _ _ hinv _ hs => hinv.step hs) Inv.init (fun _ _ => trivial) h

end Conn

/-! ## Calls end -/

def CallState.Ended : CallState → Prop
  | .done _ | .abandoned => True
  | .sending | .waiting => False

/-- At most so many steps the writer goes on for once it is cancelled. -/
def Writer.weight : Writer → ℕ
  | .stopped => 0
  | .returning => 1
  | .leaving | .cancelling => 2
  | .failing _ | .ready => 3
  | .got _ | .writing => 4
  | .passed _ | .polled => 5

def Event.OfWriter : Event → Prop
  | .writer | .writeError _ => True
  | _ => False

namespace Conn

variable {answers : ℕ → Resp.Frame} {s s' : Conn} {e : Event}

theorem writerStep_weight (hc : s.cancelled = true) (hs : s.writerStep = some s') :
    s'.writer.weight < s.writer.weight ∧ s'.cancelled = true := by
  unfold writerStep at hs
  rcases hw : s.writer with _ | _ | r | r | _ | msg | _ | _ | _ | _ <;> rw [hw] at hs <;>
    dsimp only at hs
  case ready =>
    rw [if_pos hc] at hs
    cases hs
    exact ⟨by simp [weight], hc⟩
  case polled =>
    split at hs
    · cases hs
      exact ⟨by simp [weight], hc⟩
    · cases hs
      split_ifs <;> exact ⟨by simp [weight], hc⟩
  case got =>
    rw [if_pos hc] at hs
    cases hs
    exact ⟨by simp [weight], hc⟩
  case cancelling =>
    cases hs
    exact ⟨by simp [weight], rfl⟩
  case stopped => cases hs
  all_goals
    cases hs
    exact ⟨by simp [weight], hc⟩

theorem readerStep_writer (hs : s.readerStep = some s') :
    s'.writer = s.writer ∧ (s.cancelled = true → s'.cancelled = true) := by
  unfold readerStep at hs
  split at hs
  · split at hs <;> cases hs <;> exact ⟨rfl, id⟩
  · cases hs
    exact ⟨rfl, id⟩
  · cases hs
    exact ⟨rfl, id⟩
  · cases hs
    exact ⟨rfl, fun _ => rfl⟩
  · cases hs
  · cases hs

theorem receive_writer {reader : Reader} (hs : s.receive reader frames = some s') :
    s'.writer = s.writer ∧ (s.cancelled = true → s'.cancelled = true) := by
  unfold receive at hs
  split at hs <;> cases hs
  exact ⟨rfl, id⟩

theorem step_writer (hs : s.step answers e = some s') (he : ¬ e.OfWriter) :
    s'.writer = s.writer ∧ (s.cancelled = true → s'.cancelled = true) := by
  cases e with
  | call id cmd =>
    simp only [step] at hs
    split at hs
    · split_ifs at hs
      cases hs
      exact ⟨rfl, fun h => h⟩
    · cases hs
  | enqueue id =>
    simp only [step, enqueue] at hs
    split at hs
    · cases hs
      exact ⟨rfl, fun h => h⟩
    · split_ifs at hs
      cases hs
      exact ⟨rfl, fun h => h⟩
    · cases hs
  | abandon id =>
    simp only [step] at hs
    split at hs <;> cases hs <;> exact ⟨rfl, fun h => h⟩
  | frame =>
    simp only [step] at hs
    split_ifs at hs
    exact receive_writer hs
  | decodeError | serverClose => exact receive_writer hs
  | reader => exact readerStep_writer hs
  | dropClient | idle =>
    cases hs
    exact ⟨rfl, fun h => h⟩
  | writer | writeError => exact absurd trivial he

theorem step_weight (hc : s.cancelled = true) (hs : s.step answers e = some s') :
    (s'.writer.weight ≤ s.writer.weight ∧ s'.cancelled = true) ∧
      (e.OfWriter → s'.writer.weight < s.writer.weight) := by
  by_cases he : e.OfWriter
  · cases e with
    | writer =>
      obtain ⟨hlt, hc'⟩ := writerStep_weight hc hs
      exact ⟨⟨hlt.le, hc'⟩, fun _ => hlt⟩
    | writeError msg =>
      simp only [step] at hs
      split at hs <;> cases hs
      rename_i hw
      have hlt : (failing msg).weight < s.writer.weight := by simp [hw, weight]
      exact ⟨⟨hlt.le, hc⟩, fun _ => hlt⟩
    | _ => exact he.elim
  · obtain ⟨heq, hc'⟩ := step_writer hs he
    exact ⟨⟨by rw [heq], hc' hc⟩, fun h => absurd h he⟩

/-- What a step does to a call: nothing, or it ends it, or the call gets into the queue. -/
def Goes (s : Conn) (call call' : CallState) : Prop :=
  call' = call ∨ call'.Ended ∨ call = .sending ∧ call' = .waiting ∧ s.writer ≠ .stopped

variable {id : ℕ} {cmd : Resp.Command} {call : CallState}

theorem goes_answer (s : Conn) (slots : List ℕ) (result : Except RemoteError Resp.Frame)
    (h : s.calls id = some (cmd, call)) :
    ∃ call', (s.answer slots result).calls id = some (cmd, call') ∧ s.Goes call call' := by
  by_cases hmem : id ∈ slots
  · refine ⟨call.receive result, by simp [answer, hmem, h], ?_⟩
    cases call with
    | waiting => exact .inr (.inl trivial)
    | _ => exact .inl rfl
  · exact ⟨call, by simp [answer, hmem, h], .inl rfl⟩

theorem goes_setCall {id' : ℕ} {cmd' : Resp.Command} {call' call'' : CallState}
    (h : s.calls id = some (cmd, call)) (h' : s.calls id' = some (cmd', call'))
    (hgoes : s.Goes call' call'') :
    ∃ c, update s.calls id' (some (cmd', call'')) id = some (cmd, c) ∧ s.Goes call c := by
  by_cases heq : id = id'
  · subst heq
    rw [h] at h'
    cases h'
    exact ⟨call'', update_self _ _ _, hgoes⟩
  · exact ⟨call, (update_of_ne heq _ _).trans h, .inl rfl⟩

theorem step_calls (hs : s.step answers e = some s') (h : s.calls id = some (cmd, call)) :
    ∃ call', s'.calls id = some (cmd, call') ∧ s.Goes call call' := by
  have hsame : ∃ call', s.calls id = some (cmd, call') ∧ s.Goes call call' := ⟨call, h, .inl rfl⟩
  cases e with
  | call id' cmd' =>
    simp only [step] at hs
    split at hs
    · rename_i hid
      split_ifs at hs
      cases hs
      have hne : id ≠ id' := fun heq => by
        rw [heq, hid] at h
        cases h
      exact ⟨call, (update_of_ne hne _ _).trans h, .inl rfl⟩
    · cases hs
  | enqueue id' =>
    simp only [step, enqueue] at hs
    split at hs
    · rename_i hid _
      cases hs
      exact goes_setCall h hid (.inr (.inl trivial))
    · rename_i hid hopen
      split_ifs at hs
      cases hs
      exact goes_setCall h hid (.inr (.inr ⟨rfl, rfl, hopen⟩))
    · cases hs
  | abandon id' =>
    simp only [step] at hs
    split at hs <;> cases hs
    · rename_i hid
      exact goes_setCall h hid (.inr (.inl trivial))
    · rename_i hid
      exact goes_setCall h hid (.inr (.inl trivial))
  | writer =>
    simp only [step, writerStep] at hs
    split at hs
    case h_2 => split at hs <;> cases hs <;> exact hsame
    case h_3 =>
      split_ifs at hs
      · cases hs
        exact s.goes_answer _ _ h
      · cases hs
        exact hsame
    case h_10 => cases hs
    all_goals
      cases hs
      first | exact hsame | exact s.goes_answer _ _ h
  | writeError msg =>
    simp only [step] at hs
    split at hs <;> cases hs
    exact hsame
  | frame =>
    simp only [step, receive] at hs
    split_ifs at hs
    split at hs <;> cases hs
    exact hsame
  | decodeError | serverClose =>
    simp only [step, receive] at hs
    split at hs <;> cases hs
    exact hsame
  | reader =>
    simp only [step, readerStep] at hs
    split at hs
    case h_1 => split at hs <;> cases hs <;> exact hsame
    case h_5 | h_6 => cases hs
    all_goals
      cases hs
      first | exact hsame | exact s.goes_answer _ _ h
  | dropClient | idle =>
    cases hs
    exact hsame

def Ended (s : Conn) (id : ℕ) : Prop := ∃ cmd call, s.calls id = some (cmd, call) ∧ call.Ended

end Conn

open Conn

/-- An infinite run in which each party goes on: the writer unless it has stopped, so that each
write finishes or fails; the reader when it has something other to do than to wait for the server;
and a caller when it can get into the queue, or the queue is closed. -/
structure FairRun (answers : ℕ → Resp.Frame) (S : ℕ → Conn) (evs : ℕ → Event) : Prop where
  start : S 0 = Conn.init
  isRun : IsRun (step · answers) S evs
  writer : ∀ t, ∃ u ≥ t, (evs u).OfWriter ∨ (S u).writer = .stopped
  reader : ∀ t, ∃ u ≥ t, evs u = .reader ∨ (S u).readerStep = none
  caller : ∀ id t, ∃ u ≥ t, evs u = .enqueue id ∨ (S u).enqueue id = none

namespace FairRun

variable {answers : ℕ → Resp.Frame} {S : ℕ → Conn} {evs : ℕ → Event}

theorem inv (hrun : FairRun answers S evs) (t : ℕ) : Inv answers (S t) :=
  hrun.isRun.invariant (fun _ _ hinv hs => hinv.step hs) (hrun.start ▸ Inv.init) t (Nat.zero_le t)

variable {t id : ℕ} (hrun : FairRun answers S evs)
include hrun

theorem stopped_stays (h : (S t).writer = .stopped) : ∀ u ≥ t, (S u).writer = .stopped := by
  refine @IsRun.invariant _ _ _ (fun s => s.writer = .stopped) _ _ hrun.isRun
    (fun u s' hw hs => ?_) t h
  by_cases he : (evs u).OfWriter
  · rcases hev : evs u with _ | _ | _ | _ | _ | _ | _ | _ | _ | _ | _ <;> rw [hev] at he hs
    case writer => simp [step, writerStep, hw] at hs
    case writeError => simp [step, hw] at hs
    all_goals exact he.elim
  · exact (step_writer hs he).1.trans hw

theorem writer_stops (hc : (S t).cancelled = true) : ∃ u ≥ t, (S u).writer = .stopped := by
  have hcancelled : ∀ u ≥ t, (S u).cancelled = true :=
    hrun.isRun.invariant (fun _ _ hc hs => (step_weight hc hs).1.2) hc
  refine eventually_of_descent (g := fun u => (S u).writer.weight)
    (fun u hu _ => (step_weight (hcancelled u hu) (hrun.isRun u)).1.1) fun u hu => ?_
  obtain ⟨v, hv, hev | hstopped⟩ := hrun.writer u
  · exact ⟨v, hv, .inr ((step_weight (hcancelled v (hu.trans hv)) (hrun.isRun v)).2 hev)⟩
  · exact ⟨v, hv, .inl hstopped⟩

theorem held (hw : (S t).writer = .stopped) {cmd : Resp.Command}
    (hc : (S t).calls id = some (cmd, .waiting)) : ∃ frame, (S t).reader = .holding id frame := by
  have hinv := hrun.inv t
  rcases hinv.waits id cmd hc with hmem | hmem | hread
  · rw [hinv.emptied hw, hw] at hmem
    exact absurd hmem not_mem_nil
  · rw [hinv.drained (by rw [hw]; trivial)] at hmem
    exact absurd hmem not_mem_nil
  · exact hread

theorem stays (hw : (S t).writer = .stopped)
    {cmd : Resp.Command} {call : CallState} (hc : (S t).calls id = some (cmd, call)) :
    ∀ u ≥ t, (S u).calls id = some (cmd, call) ∨ (S u).Ended id := by
  intro u hu
  induction u, hu using Nat.le_induction with
  | base => exact .inl hc
  | succ u hu ih =>
    have hstopped := hrun.stopped_stays hw u hu
    rcases ih with hcall | ⟨cmd', call', hcall, hended⟩
    · obtain ⟨call', hcall', rfl | hended | ⟨-, -, hopen⟩⟩ := step_calls (hrun.isRun u) hcall
      · exact .inl hcall'
      · exact .inr ⟨cmd, call', hcall', hended⟩
      · exact absurd hstopped hopen
    obtain ⟨call'', hcall'', rfl | hended' | ⟨rfl, -⟩⟩ := step_calls (hrun.isRun u) hcall
    · exact .inr ⟨cmd', _, hcall'', hended⟩
    · exact .inr ⟨cmd', call'', hcall'', hended'⟩
    · exact hended.elim

theorem calls_kept (h : (S t).calls id ≠ none) : ∀ u ≥ t, (S u).calls id ≠ none := by
  refine @IsRun.invariant _ _ _ (fun s => s.calls id ≠ none) _ _ hrun.isRun
    (fun u s' hcall hs => ?_) t h
  obtain ⟨⟨cmd, call⟩, hc⟩ := ne_none_iff_exists'.1 hcall
  obtain ⟨call', hc', -⟩ := step_calls hs hc
  simp [hc']

theorem ends_of_stopped (hw : (S t).writer = .stopped)
    (hcall : (S t).calls id ≠ none) : ∃ u ≥ t, (S u).Ended id := by
  obtain ⟨⟨cmd, call⟩, hc⟩ := ne_none_iff_exists'.1 hcall
  cases call with
  | done result => exact ⟨t, le_rfl, cmd, .done result, hc, trivial⟩
  | abandoned => exact ⟨t, le_rfl, cmd, .abandoned, hc, trivial⟩
  | sending =>
    obtain ⟨u, hu, hev⟩ := hrun.caller id t
    rcases hrun.stays hw hc u hu with hc' | hended
    · have hclosed : (S u).enqueue id
          = some ((S u).setCall id cmd (.done (.error (.serverGone "writer queue closed")))) := by
        simp [enqueue, hc', hrun.stopped_stays hw u hu]
      have hstep := hrun.isRun u
      rcases hev with hev | hev
      · rw [hev] at hstep
        have hnext := some.inj (hstep.symm.trans hclosed)
        refine ⟨u + 1, by omega, cmd, .done (.error (.serverGone "writer queue closed")), ?_,
          trivial⟩
        rw [hnext]
        exact update_self _ _ _
      · rw [hclosed] at hev
        cases hev
    · exact ⟨u, hu, hended⟩
  | waiting =>
    obtain ⟨u, hu, hev⟩ := hrun.reader t
    rcases hrun.stays hw hc u hu with hc' | hended
    · obtain ⟨frame, hread⟩ := hrun.held (hrun.stopped_stays hw u hu) hc'
      have hdeliver : (S u).readerStep
          = some { (S u).answer [id] (.ok frame) with reader := .ready } := by
        simp [readerStep, hread]
      have hstep := hrun.isRun u
      rcases hev with hev | hev
      · rw [hev] at hstep
        have hnext := some.inj (hstep.symm.trans hdeliver)
        refine ⟨u + 1, by omega, cmd, .done (.ok frame), ?_, trivial⟩
        simp [hnext, answer, hc', CallState.receive]
      · rw [hdeliver] at hev
        cases hev
    · exact ⟨u, hu, hended⟩

end FairRun

/-- Whatever the interleaving, a call that gets a reply gets the server's answer to its own request;
and in a run in which each party goes on, every call ends once one of the two tasks has stopped. -/
theorem calls_resolve (answers : ℕ → Resp.Frame) :
    (∀ (es : List Event) (s : Conn), exec (step · answers) Conn.init es = some s →
      ∀ id cmd frame, s.calls id = some (cmd, .done (.ok frame)) →
        ∃ n, s.wire[n]? = some ⟨id, cmd⟩ ∧ frame = answers n ∧
          ∀ m r, s.wire[m]? = some r → r.slot = id → m = n) ∧
    ∀ (S : ℕ → Conn) (evs : ℕ → Event), FairRun answers S evs →
      ∀ t, (S t).reader = .stopped ∨ (S t).writer = .stopped →
        ∀ u ≥ t, ∀ id, (S u).calls id ≠ none → ∃ v ≥ u, (S v).Ended id := by
  constructor
  · intro es s hs id cmd frame hcall
    exact (inv_exec hs).reply_own hcall
  intro S evs hrun t hstop u hu id hcall
  have hwriter : ∃ v ≥ t, (S v).writer = .stopped := by
    rcases hstop with hr | hw
    · exact hrun.writer_stops ((hrun.inv t).cancelled hr)
    · exact ⟨t, le_rfl, hw⟩
  obtain ⟨v, hv, hw⟩ := hwriter
  have hw' := hrun.stopped_stays hw (max u v) (le_max_right u v)
  obtain ⟨w, hle, hended⟩ :=
    hrun.ends_of_stopped hw' (hrun.calls_kept hcall (max u v) (le_max_left u v))
  exact ⟨w, (le_max_left u v).trans hle, hended⟩

/-- The server closes the connection after the writer has checked that it is open. The slot is
pushed when the reader has failed what was in flight, and the reader stops before the write ends. -/
def lateWrite : List Event :=
  [.call 0 (.ping none), .enqueue 0, .writer, .writer, .writer, .serverClose, .reader, .writer,
    .reader, .writer, .writer, .writer, .writer]

def lateWriteEvents (t : ℕ) : Event := lateWrite.getD t .idle

def lateWriteRun : ℕ → Conn
  | 0 => Conn.init
  | t + 1 =>
    ((lateWriteRun t).step (fun _ => .simpleString "PONG") (lateWriteEvents t)).getD
      (lateWriteRun t)

theorem lateWriteRun_rests : ∀ t, lateWriteRun (t + 13) = lateWriteRun 13
  | 0 => rfl
  | t + 1 => by
    have hidle : lateWriteEvents (t + 13) = .idle := rfl
    rw [← lateWriteRun_rests t, Nat.add_right_comm, lateWriteRun, hidle]
    rfl

theorem lateWriteRun_fair :
    FairRun (fun _ => .simpleString "PONG") lateWriteRun lateWriteEvents where
  start := rfl
  isRun t := by
    have hfirst : ∀ t < 13, ((lateWriteRun t).step (fun _ => .simpleString "PONG")
        (lateWriteEvents t)).isSome = true := by
      decide
    have hsome : ((lateWriteRun t).step (fun _ => .simpleString "PONG")
        (lateWriteEvents t)).isSome = true := by
      rcases Nat.lt_or_ge t 13 with ht | ht
      · exact hfirst t ht
      · obtain ⟨d, rfl⟩ := Nat.exists_eq_add_of_le' ht
        rfl
    obtain ⟨s, hs⟩ := isSome_iff_exists.1 hsome
    have hnext : lateWriteRun (t + 1) = s := by rw [lateWriteRun, hs, getD_some]
    rw [hnext]
    exact hs
  writer t := ⟨t + 13, by omega, .inr (by rw [lateWriteRun_rests]; rfl)⟩
  reader t := ⟨t + 13, by omega, .inr (by rw [lateWriteRun_rests]; rfl)⟩
  caller id t := by
    refine ⟨t + 13, by omega, .inr ?_⟩
    rw [lateWriteRun_rests]
    rcases id with _ | id <;> rfl

theorem calls_resolve_late :
    (lateWriteRun 9).reader = .stopped ∧ ∃ v ≥ 9, (lateWriteRun v).Ended 0 :=
  ⟨rfl, (calls_resolve fun _ => .simpleString "PONG").2 lateWriteRun lateWriteEvents
    lateWriteRun_fair 9 (.inl rfl) 9 le_rfl 0 (some_ne_none _)⟩

end Kamino.Remote
