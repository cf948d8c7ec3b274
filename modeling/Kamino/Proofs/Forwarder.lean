import Kamino.Forwarder
import Kamino.Lib.Runs

/-!
# What a caller of a pooled connection receives

Every permit is accounted for. As long as the reader has not failed, `in_flight` is what was pushed
less what was popped, so the slot at the front is that of the next reply.
-/

namespace Kamino

open Function Runs List WriterPhase

variable {res : Except ClusterError Resp.Frame}

section Stages

variable {stage : ℕ → CallStage} {r' : ℕ} {x : Except ClusterError Resp.Frame}

theorem update_done {r : ℕ} {st : CallStage} (h : update stage r st r' = .done x) :
    stage r' = .done x ∨ r' = r ∧ st = .done x := by
  by_cases hr : r' = r
  · subst hr
    rw [update_self] at h
    exact .inr ⟨rfl, h⟩
  · rw [update_of_ne hr] at h
    exact .inl h

theorem settle_done {r : ℕ}
    (h : settle stage r res r' = .done x) : stage r' = .done x ∨ r' = r ∧ x = res := by
  rcases hst : stage r with _ | _ | y <;> simp only [settle, hst] at h
  · exact .inl h
  · exact (update_done h).imp_right (.imp_right fun hx => (CallStage.done.inj hx).symm)
  · exact .inl h

theorem settleAll_done {rs : List ℕ} (h : settleAll stage rs res r' = .done x) :
    stage r' = .done x ∨ x = res := by
  induction rs generalizing stage with
  | nil => exact .inl h
  | cons r rs ih =>
    rcases ih h with h' | h'
    · rcases settle_done h' with h'' | ⟨-, rfl⟩
      · exact .inl h''
      · exact .inr rfl
    · exact .inr h'

end Stages

/-- The permit the writer holds between `recv` and `push`. -/
def WriterPhase.hand : WriterPhase → ℕ
  | .got _ | .checked _ => 1
  | _ => 0

def WriterPhase.Pending : WriterPhase → List ℕ → Prop
  | .pushed r, pend => pend = [r]
  | .failing _, pend | .ended, pend => pend.length ≤ 1
  | _, pend => pend = []

def WriterPhase.Over : WriterPhase → Prop
  | .failed | .ended => True
  | _ => False

def WriterPhase.toWire : WriterPhase → ℕ
  | .pushed _ => 1
  | _ => 0

/-- Going from one phase to the other neither pushes nor writes. -/
structure WriterPhase.Quiet (w w' : WriterPhase) : Prop where
  pending : ∀ {pend}, w.Pending pend → w'.Pending pend
  stays : w.Over → w'.Over
  toWire : w'.toWire ≤ w.toWire

variable {w : WriterPhase}

theorem WriterPhase.Pending.length_le {pend : List ℕ} (h : w.Pending pend) : pend.length ≤ 1 := by
  cases w with
  | pushed r =>
    cases h
    exact le_rfl
  | failing | ended => exact h
  | _ =>
    cases h
    exact Nat.zero_le _

theorem WriterPhase.Quiet.of_idle {w' : WriterPhase} (hw : w.Pending = (· = []))
    (hw' : w'.Pending []) (hover : ¬ w.Over) (hwire : w'.toWire = 0) : w.Quiet w' where
  pending h := by
    rw [hw] at h
    cases h
    exact hw'
  stays h := absurd h hover
  toWire := hwire.le.trans (Nat.zero_le _)

theorem WriterPhase.Quiet.ended : w.Quiet .ended where
  pending h := h.length_le
  stays _ := trivial
  toWire := Nat.zero_le _

theorem WriterPhase.Quiet.failing (hover : ¬ w.Over) (reason : String) :
    w.Quiet (.failing reason) where
  pending h := h.length_le
  stays h := absurd h hover
  toWire := Nat.zero_le _

def ReaderPhase.hand : ReaderPhase → ℕ
  | .popped (some _) _ => 1
  | _ => 0

def ReaderPhase.unpopped : ReaderPhase → ℕ
  | .got _ => 1
  | _ => 0

def ReaderPhase.Failed : ReaderPhase → Prop
  | .failed | .ended => True
  | _ => False

/-- The reader holds no slot and no reply, and has not failed. -/
def ReaderPhase.Rests : ReaderPhase → Prop
  | .idle | .failing _ | .aborted => True
  | _ => False

namespace ReaderPhase.Rests

variable {reader : ReaderPhase}

theorem hand (h : reader.Rests) : reader.hand = 0 := by
  cases reader <;> first | rfl | exact h.elim

theorem unpopped (h : reader.Rests) : reader.unpopped = 0 := by
  cases reader <;> first | rfl | exact h.elim

theorem not_failed (h : reader.Rests) : ¬ reader.Failed := by
  cases reader <;> first | exact id | exact h.elim

end ReaderPhase.Rests

/-- An error of the connection, a timeout, or what the peer answered to this request. -/
def Own (written : List ℕ) (replies : List Resp.Frame) (r : ℕ)
    (res : Except ClusterError Resp.Frame) : Prop :=
  (∃ msg, res = .error (.serverGone msg)) ∨ (∃ msg, res = .error (.timeout msg)) ∨
    ∃ (k : ℕ) (frame : Resp.Frame), written[k]? = some r ∧ replies[k]? = some frame ∧
      res = mapReply frame

theorem getElem?_append_of_some {α : Type} {l : List α} {k : ℕ} {a : α} (h : l[k]? = some a)
    (t : List α) : (l ++ t)[k]? = some a := by
  rw [List.getElem?_append_left (List.getElem?_eq_some_iff.1 h).1, h]

theorem Own.mono {written : List ℕ} {replies : List Resp.Frame} {r : ℕ}
    (h : Own written replies r res) (rs : List ℕ) (frames : List Resp.Frame) :
    Own (written ++ rs) (replies ++ frames) r res := by
  rcases h with h | h | ⟨k, frame, hk, hf, hres⟩
  · exact .inl h
  · exact .inr (.inl h)
  · exact .inr (.inr ⟨k, frame, getElem?_append_of_some hk _, getElem?_append_of_some hf _, hres⟩)

namespace PoolConn

/-- The slots are those of the requests pushed and not yet answered; or the writer has failed them
all. -/
def Aligned (c : PoolConn) : Prop :=
  (c.writer.Over ∧ c.inFlight = []) ∨ ∃ pend, c.writer.Pending pend ∧
      c.inFlight = (c.written ++ pend).drop (c.read - c.reader.unpopped)

structure Inv (cfg : ForwarderConfig) (c : PoolConn) : Prop where
  ledger : c.permits + c.sending.length + c.queue.length + c.writer.hand + c.inFlight.length
    + c.reader.hand = cfg.inflightPerConn
  read_le : c.read ≤ c.replies.length
  replies_le : c.replies.length ≤ c.written.length
  aligned : ¬ c.reader.Failed → c.Aligned
  got : ∀ frame, c.reader = .got frame → 0 < c.read ∧ c.replies[c.read - 1]? = some frame
  popped : ∀ r frame, c.reader = .popped (some r) frame →
    ∃ k : ℕ, c.written[k]? = some r ∧ c.replies[k]? = some frame
  results : ∀ r res, c.stage r = .done res → Own c.written c.replies r res
  room : ¬ c.reader.Failed → c.written.length + c.writer.toWire ≤ c.read + cfg.inflightPerConn
  overrun : c.reader.Failed →
    c.written.length + c.writer.toWire ≤ c.read + cfg.inflightPerConn + c.inFlight.length ∨
      c.writer.Over ∧ c.written.length ≤ c.read + 2 * cfg.inflightPerConn

variable {cfg : ForwarderConfig} {c c' : PoolConn}

theorem Inv.start : Inv cfg (start cfg) where
  ledger := by
    have := cfg.pos
    change max cfg.inflightPerConn 1 + 0 + 0 + 0 + 0 + 0 = _
    omega
  read_le := le_rfl
  replies_le := le_rfl
  aligned _ := .inr ⟨[], rfl, rfl⟩
  got _ h := nomatch h
  popped _ _ h := nomatch h
  results _ _ h := nomatch h
  room _ := Nat.zero_le _
  overrun h := h.elim

variable {stage : ℕ → CallStage} {permits r : ℕ} {terminal : Bool} {writer : WriterPhase}
  {e : PoolEvent}

section

variable (h : Inv cfg c)
include h

theorem Inv.settled {acquiring sending queue : List ℕ} {aborting dropped : Bool}
    (hledger : permits + sending.length + queue.length =
      c.permits + c.sending.length + c.queue.length)
    (hstage : ∀ r res, stage r = .done res →
      c.stage r = .done res ∨ Own c.written c.replies r res) :
    Inv cfg { c with
      stage := stage, permits := permits, acquiring := acquiring, sending := sending,
      queue := queue, terminal := terminal, aborting := aborting, dropped := dropped } where
  __ := h
  ledger := by
    have := h.ledger
    dsimp only
    omega
  results r res hr := (hstage r res hr).elim (h.results r res) id

theorem Inv.callStep (hs : callStep cfg c r = some c') : Inv cfg c' := by
  unfold PoolConn.callStep at hs
  split at hs
  · split_ifs at hs
    · cases hs
      refine h.settled rfl fun r' res hr => (update_done hr).imp_right ?_
      rintro ⟨-, ⟨⟩⟩
      exact .inl ⟨_, rfl⟩
    · cases hs
      refine h.settled rfl fun r' res hr => (update_done hr).imp_right ?_
      rintro ⟨-, ⟨⟩⟩
  · cases hs

theorem Inv.acquireStep (hs : acquireStep c r = some c') : Inv cfg c' := by
  unfold PoolConn.acquireStep at hs
  split_ifs at hs with hr
  cases hs
  refine h.settled ?_ fun _ _ hres => .inl hres
  rw [length_cons]
  omega

theorem Inv.enqueueStep (hs : enqueueStep cfg c r = some c') : Inv cfg c' := by
  unfold PoolConn.enqueueStep at hs
  split_ifs at hs with hr hended hroom
  · have hlen := length_erase_add_one hr
    cases hs
    refine h.settled (by omega) fun r' res hres => ?_
    rcases settle_done hres with hres | ⟨-, rfl⟩
    · exact .inl hres
    · exact .inr (.inl ⟨_, rfl⟩)
  · have hlen := length_erase_add_one hr
    cases hs
    refine h.settled ?_ fun _ _ hres => .inl hres
    rw [length_append, length_singleton]
    omega

theorem Inv.timeoutStep {msg : String} (hs : timeoutStep c r msg = some c') : Inv cfg c' := by
  unfold PoolConn.timeoutStep at hs
  split at hs <;> cases hs
  refine h.settled ?_ fun r' res hr => ?_
  · split_ifs with hmem
    · have := length_erase_add_one hmem
      omega
    · rw [erase_of_not_mem hmem]
  · refine (update_done hr).imp_right ?_
    rintro ⟨-, ⟨⟩⟩
    exact .inr (.inl ⟨_, rfl⟩)

theorem Inv.inFlight_eq (hr : ¬ c.reader.Failed) (hw : ¬ c.writer.Over) :
    ∃ pend, c.writer.Pending pend ∧
      c.inFlight = (c.written ++ pend).drop (c.read - c.reader.unpopped) :=
  (h.aligned hr).resolve_left fun hover => hw hover.1

theorem Inv.popped_le : c.read - c.reader.unpopped ≤ c.written.length :=
  (Nat.sub_le _ _).trans (h.read_le.trans h.replies_le)

theorem Inv.advance {queue : List ℕ}
    (hledger : permits + queue.length + writer.hand = c.permits + c.queue.length + c.writer.hand)
    (hquiet : c.writer.Quiet writer)
    (hstage : ∀ r res, stage r = .done res →
      c.stage r = .done res ∨ Own c.written c.replies r res) :
    Inv cfg { c with
      writer := writer, permits := permits, queue := queue, stage := stage,
      terminal := terminal } where
  __ := h
  ledger := by
    have := h.ledger
    dsimp only
    omega
  aligned hr := by
    rcases h.aligned hr with ⟨hw, hin⟩ | ⟨pend, hp, hin⟩
    · exact .inl ⟨hquiet.stays hw, hin⟩
    · exact .inr ⟨pend, hquiet.pending hp, hin⟩
  results r res hr := (hstage r res hr).elim (h.results r res) id
  room hr := by
    have := h.room hr
    have := hquiet.toWire
    dsimp only
    omega
  overrun hr := by
    rcases h.overrun hr with hle | ⟨hw, hle⟩
    · have := hquiet.toWire
      left
      dsimp only
      omega
    · exact .inr ⟨hquiet.stays hw, hle⟩

theorem Inv.pass {w : WriterPhase} (hw : c.writer = w) (hhand : writer.hand = w.hand)
    (hquiet : w.Quiet writer) : Inv cfg { c with writer := writer } := by
  subst hw
  exact h.advance (congrArg (c.permits + c.queue.length + ·) hhand) hquiet fun _ _ => .inl

theorem Inv.push (hw : c.writer = .checked r) :
    Inv cfg { c with writer := .pushed r, inFlight := c.inFlight ++ [r] } := by
  have hledger := h.ledger
  rw [hw] at hledger
  simp only [hand] at hledger
  have halign (hr : ¬ c.reader.Failed) :
      c.inFlight = c.written.drop (c.read - c.reader.unpopped) := by
    obtain ⟨pend, hp, hin⟩ := h.inFlight_eq hr (by rw [hw]; exact id)
    rw [hw] at hp
    cases hp
    rwa [append_nil] at hin
  exact {
    __ := h
    ledger := by
      simp only [hand, length_append, length_singleton]
      omega
    aligned := fun hr => by
      refine .inr ⟨[r], rfl, ?_⟩
      rw [drop_append_of_le_length h.popped_le, ← halign hr]
    room := fun hr => by
      have hlen := congrArg length (halign hr)
      rw [length_drop] at hlen
      simp only [toWire]
      omega
    overrun := fun hr => by
      rcases h.overrun hr with hle | ⟨hover, -⟩
      · left
        rw [hw] at hle
        simp only [toWire, length_append, length_singleton] at hle ⊢
        omega
      · rw [hw] at hover
        exact hover.elim }

theorem Inv.wire (hw : c.writer = .pushed r) :
    Inv cfg { c with writer := .wrote, written := c.written ++ [r] } where
  __ := h
  ledger := by
    have := h.ledger
    rwa [hw] at this
  replies_le := by
    rw [length_append]
    exact h.replies_le.trans (Nat.le_add_right _ _)
  aligned hr := by
    obtain ⟨pend, hp, hin⟩ := h.inFlight_eq hr (by rw [hw]; exact id)
    rw [hw] at hp
    cases hp
    exact .inr ⟨[], rfl, by rw [append_nil]; exact hin⟩
  popped r' frame hr := by
    obtain ⟨k, hk, hf⟩ := h.popped r' frame hr
    exact ⟨k, getElem?_append_of_some hk _, hf⟩
  results r' res hr := by
    have := (h.results r' res hr).mono [r] []
    rwa [append_nil] at this
  room hr := by
    have := h.room hr
    rw [hw] at this
    simp only [toWire, length_append, length_singleton] at this ⊢
    omega
  overrun hr := by
    rcases h.overrun hr with hle | ⟨hover, -⟩
    · left
      rw [hw] at hle
      simp only [toWire, length_append, length_singleton] at hle ⊢
      omega
    · rw [hw] at hover
      exact hover.elim

theorem Inv.failAll (reason : String) (hover : writer.Over)
    (hhand : c.writer.hand = 0) : Inv cfg { c.failAll reason with writer := writer } := by
  have hw : writer.hand = 0 ∧ writer.toWire = 0 := by
    cases writer <;> first | exact ⟨rfl, rfl⟩ | exact hover.elim
  have hledger := h.ledger
  exact {
    __ := h
    ledger := by
      simp only [PoolConn.failAll, length_nil]
      omega
    aligned := fun _ => .inl ⟨hover, rfl⟩
    results := fun r res hr => by
      rcases settleAll_done hr with hr | rfl
      · exact h.results r res hr
      · exact .inl ⟨_, rfl⟩
    room := fun hr => by
      have := h.room hr
      simp only [PoolConn.failAll]
      omega
    overrun := fun hr => by
      right
      refine ⟨hover, ?_⟩
      rcases h.overrun hr with hle | ⟨-, hle⟩
      · simp only [PoolConn.failAll]
        omega
      · exact hle }

theorem Inv.dropQueue (hhand : c.writer.hand = 0) :
    Inv cfg (dropQueue cfg { c with writer := .ended, terminal := terminal }) := by
  refine h.advance ?_ .ended fun r res hr => ?_
  · rw [hhand]
    rfl
  · rcases settleAll_done hr with hr | rfl
    · exact .inl hr
    · exact .inr (.inl ⟨_, rfl⟩)

theorem Inv.writerStep (hs : writerStep cfg c c.writer e = some c') : Inv cfg c' := by
  generalize hw : c.writer = w at hs
  unfold PoolConn.writerStep at hs
  split at hs
  · split at hs <;> cases hs
    rename_i r queue hq
    refine h.advance ?_ ?_ fun _ _ => .inl
    · rw [hw, hq, length_cons]
      rfl
    · rw [hw]
      exact .of_idle rfl rfl id rfl
  · split_ifs at hs
    cases hs
    exact h.pass hw rfl (.failing id _)
  · split_ifs at hs
    · cases hs
      refine h.advance ?_ ?_ fun r' res hr => ?_
      · rw [hw]
        simp only [hand]
        omega
      · rw [hw]
        exact .of_idle rfl rfl id rfl
      · rcases settle_done hr with hr | ⟨-, rfl⟩
        · exact .inl hr
        · exact .inr (.inl ⟨_, rfl⟩)
    · cases hs
      exact h.pass hw rfl (.of_idle rfl rfl id rfl)
  · cases hs
    exact h.push hw
  · cases hs
    exact h.wire hw
  · cases hs
    exact h.pass hw rfl (.of_idle rfl rfl id rfl)
  · cases hs
    exact h.pass hw rfl (.failing id _)
  · cases hs
    exact h.pass hw rfl (.failing id _)
  · cases hs
    exact h.failAll _ trivial (by rw [hw]; rfl)
  · cases hs
    exact h.dropQueue (by rw [hw]; rfl)
  · split_ifs at hs
    cases hs
    exact h.dropQueue (by rw [hw]; rfl)
  · split_ifs at hs
    cases hs
    exact h.dropQueue (by rw [hw]; rfl)
  · split_ifs at hs
    cases hs
    exact h.dropQueue (by rw [hw]; rfl)
  · cases hs

theorem Inv.read (hr : c.reader = .idle) {frame : Resp.Frame}
    (hf : c.replies[c.read]? = some frame) :
    Inv cfg { c with reader := .got frame, read := c.read + 1 } where
  __ := h
  ledger := by
    have := h.ledger
    rwa [hr] at this
  read_le := (List.getElem?_eq_some_iff.1 hf).1
  aligned _ := by
    have := h.aligned (by rw [hr]; exact id)
    rw [Aligned, hr] at this
    exact this
  got frame' heq := by
    cases heq
    exact ⟨Nat.succ_pos _, hf⟩
  popped _ _ heq := nomatch heq
  room _ := by
    have := h.room (by rw [hr]; exact id)
    dsimp only
    omega
  overrun hfail := hfail.elim

theorem Inv.pop {frame : Resp.Frame} (hr : c.reader = .got frame) :
    Inv cfg { c with reader := .popped c.inFlight.head? frame, inFlight := c.inFlight.tail } := by
  obtain ⟨hpos, hf⟩ := h.got frame hr
  have hbound := h.read_le.trans h.replies_le
  have halign := h.aligned (by rw [hr]; exact id)
  rw [Aligned, hr] at halign
  simp only [ReaderPhase.unpopped] at halign
  have hhead : ∀ r, c.inFlight.head? = some r → c.written[c.read - 1]? = some r := by
    intro r hhead
    rcases halign with ⟨-, hin⟩ | ⟨pend, -, hin⟩ <;> rw [hin] at hhead
    · cases hhead
    · rwa [head?_drop, getElem?_append_left (by omega)] at hhead
  have hledger := h.ledger
  rw [hr] at hledger
  exact {
    __ := h
    ledger := by
      rcases hin : c.inFlight with _ | ⟨r, slots⟩ <;> rw [hin] at hledger <;>
        simp only [ReaderPhase.hand, head?_nil, head?_cons, tail_nil,
          tail_cons, length_cons, length_nil] at hledger ⊢ <;> omega
    aligned := fun _ => by
      rcases halign with ⟨hw, hin⟩ | ⟨pend, hp, hin⟩
      · exact .inl ⟨hw, by rw [hin]; rfl⟩
      · refine .inr ⟨pend, hp, ?_⟩
        change c.inFlight.tail = (c.written ++ pend).drop c.read
        rw [hin, tail_drop, Nat.sub_add_cancel hpos]
    got := fun _ heq => nomatch heq
    popped := fun r frame' heq => by
      obtain ⟨hslot, rfl⟩ := ReaderPhase.popped.inj heq
      exact ⟨c.read - 1, hhead r hslot, hf⟩
    room := fun _ => h.room (by rw [hr]; exact id)
    overrun := fun hfail => hfail.elim }

theorem Inv.turn {reader : ReaderPhase}
    (hrests : reader.Rests) (hlive : ¬ c.reader.Failed) (hpop : c.reader.unpopped = 0)
    (hledger : permits = c.permits + c.reader.hand)
    (hstage : ∀ r res, stage r = .done res →
      c.stage r = .done res ∨ Own c.written c.replies r res) :
    Inv cfg { c with reader := reader, permits := permits, stage := stage } where
  __ := h
  ledger := by
    have := h.ledger
    have := hrests.hand
    dsimp only
    omega
  aligned _ := by
    have := h.aligned hlive
    rw [Aligned, hpop, ← hrests.unpopped] at this
    exact this
  got frame heq := by
    subst heq
    exact hrests.elim
  popped r frame heq := by
    subst heq
    exact hrests.elim
  results r res hr := (hstage r res hr).elim (h.results r res) id
  room _ := h.room hlive
  overrun hfail := absurd hfail hrests.not_failed

theorem Inv.leave {r reader : ReaderPhase} (hr : c.reader = r)
    (hrests : reader.Rests) (hlive : ¬ r.Failed) (hpop : r.unpopped = 0) (hhand : r.hand = 0) :
    Inv cfg { c with reader := reader } := by
  subst hr
  exact h.turn hrests hlive hpop (by rw [hhand]; rfl) fun _ _ => .inl

theorem Inv.readerFailAll {reason : String} (hr : c.reader = .failing reason) :
    Inv cfg { c.failAll reason with reader := .failed } where
  __ := h
  ledger := by
    have := h.ledger
    rw [hr] at this
    simp only [PoolConn.failAll, ReaderPhase.hand, length_nil] at this ⊢
    omega
  aligned hfail := absurd trivial hfail
  got _ heq := nomatch heq
  popped _ _ heq := nomatch heq
  results r res hres := by
    rcases settleAll_done hres with hres | rfl
    · exact h.results r res hres
    · exact .inl ⟨_, rfl⟩
  room hfail := absurd trivial hfail
  overrun _ := .inl (h.room (by rw [hr]; exact id))

theorem Inv.readerTerminal (hr : c.reader = .failed) :
    Inv cfg { c with reader := .ended, terminal := true } where
  __ := h
  ledger := by
    have := h.ledger
    rwa [hr] at this
  aligned hfail := absurd trivial hfail
  got _ heq := nomatch heq
  popped _ _ heq := nomatch heq
  room hfail := absurd trivial hfail
  overrun _ := h.overrun (by rw [hr]; trivial)

theorem Inv.readerStep (hs : readerStep c c.reader e = some c') : Inv cfg c' := by
  generalize hr : c.reader = w at hs
  unfold PoolConn.readerStep at hs
  split at hs
  · split at hs <;> cases hs
    exact h.read hr ‹_›
  · cases hs
    exact h.pop hr
  · rename_i r frame
    cases hs
    obtain ⟨k, hk, hf⟩ := h.popped r frame hr
    refine h.turn trivial ?_ ?_ ?_ fun r' res hres => ?_
    · rw [hr]
      exact id
    · rw [hr]
      rfl
    · rw [hr]
      rfl
    · rcases settle_done hres with hres | ⟨rfl, rfl⟩
      · exact .inl hres
      · exact .inr (.inr (.inr ⟨k, frame, hk, hf, rfl⟩))
  · cases hs
    exact h.leave hr trivial id rfl rfl
  · cases hs
    exact h.leave hr trivial id rfl rfl
  · cases hs
    exact h.leave hr trivial id rfl rfl
  · cases hs
    exact h.readerFailAll hr
  · cases hs
    exact h.readerTerminal hr
  · split_ifs at hs
    cases hs
    exact h.leave hr trivial id rfl rfl
  · cases hs

theorem Inv.answer (frame : Resp.Frame) (hlt : c.replies.length < c.written.length) :
    Inv cfg { c with replies := c.replies ++ [frame] } where
  __ := h
  read_le := by
    rw [length_append]
    exact h.read_le.trans (Nat.le_add_right _ _)
  replies_le := by
    rw [length_append]
    exact hlt
  got frame' heq := (h.got frame' heq).imp_right fun hf => getElem?_append_of_some hf _
  popped r frame' heq := by
    obtain ⟨k, hk, hf⟩ := h.popped r frame' heq
    exact ⟨k, hk, getElem?_append_of_some hf _⟩
  results r res hr := by
    have := (h.results r res hr).mono [] [frame]
    rwa [append_nil] at this

/-- Every step keeps the account of permits and slots. -/
theorem Inv.step (hs : step cfg c e = some c') : Inv cfg c' := by
  cases e with
  | call r => exact h.callStep hs
  | acquire r => exact h.acquireStep hs
  | enqueue r => exact h.enqueueStep hs
  | timeout r msg => exact h.timeoutStep hs
  | answer frame =>
    simp only [PoolConn.step] at hs
    split_ifs at hs with hlt
    cases hs
    exact h.answer frame hlt
  | shutdown =>
    cases hs
    exact h.settled rfl fun _ _ => .inl
  | dropSlots =>
    simp only [PoolConn.step, dropSlotsStep] at hs
    split at hs <;> cases hs
    all_goals
      rename_i hw _
      have := h.failAll ("response slot dropped for " ++ cfg.addr)
        (show ended.Over from trivial) (by rw [hw]; rfl)
      rwa [← hw] at this
  | dropPool =>
    simp only [PoolConn.step] at hs
    split_ifs at hs
    cases hs
    exact h.settled rfl fun _ _ => .inl
  | recv | check | push | wire | sent | writeError | channelClosed | writerFailAll
  | writerTerminal | abortWriter => exact h.writerStep hs
  | read | pop | deliver | decodeError | peerClosed | readerFailAll | readerTerminal
  | abortReader => exact h.readerStep hs

end

/-- Every run from the start keeps the invariant. -/
theorem inv_exec {es : List PoolEvent} (h : exec (step cfg) (start cfg) es = some c) : Inv cfg c :=
  exec_invariant (fun _ _ _ hinv _ hs => hinv.step hs) .start (fun _ _ => trivial) h

/-- In every run a caller receives what the peer answered to its own request, or an error; and no
more than `inflight_per_conn` requests are on the wire without an answer, unless the reader has
failed the requests in flight, which lets at most as many again through. -/
theorem send_request_sound (cfg : ForwarderConfig) (es : List PoolEvent) (c : PoolConn)
    (h : exec (step cfg) (start cfg) es = some c) :
    (∀ r res, c.stage r = .done res → Own c.written c.replies r res) ∧
      (¬ c.reader.Failed → c.unanswered ≤ cfg.inflightPerConn) ∧
      c.unanswered ≤ 2 * cfg.inflightPerConn := by
  have hinv := inv_exec h
  have hledger := hinv.ledger
  refine ⟨hinv.results, fun hr => ?_, ?_⟩
  · have := hinv.room hr
    rw [unanswered]
    omega
  rw [unanswered]
  by_cases hr : c.reader.Failed
  · rcases hinv.overrun hr with hle | ⟨-, hle⟩ <;> omega
  · have := hinv.room hr
    omega

/-- Two callers share the connection; the first gives up, and its late reply goes to nobody. -/
def sharedRun : List PoolEvent :=
  [.call 1, .call 2, .acquire 2, .acquire 1, .enqueue 1, .enqueue 2, .recv, .check, .push, .wire,
    .timeout 1 "internode RPC to 10.0.0.2:7946 exceeded 2s", .sent, .recv, .check, .push, .wire,
    .sent, .answer (.integer 1), .answer (.integer 2), .read, .pop, .deliver, .read, .pop,
    .deliver]

theorem send_request_sound_shared :
    let cfg : ForwarderConfig := ⟨"10.0.0.2:7946", 2, by decide⟩
    ∃ c, exec (step cfg) (start cfg) sharedRun = some c ∧ c.stage 2 = .done (.ok (.integer 2))
      ∧ (∀ r res, c.stage r = .done res → Own c.written c.replies r res)
      ∧ (¬ c.reader.Failed → c.unanswered ≤ 2) ∧ c.unanswered ≤ 2 * 2 := by
  intro cfg
  obtain ⟨c, hc⟩ : ∃ c, exec (step cfg) (start cfg) sharedRun = some c := ⟨_, rfl⟩
  have hstage : (exec (step cfg) (start cfg) sharedRun).map (fun c => c.stage 2) =
      some (.done (.ok (.integer 2))) := rfl
  rw [hc] at hstage
  exact ⟨c, hc, Option.some.inj hstage, send_request_sound cfg sharedRun c hc⟩

/-- The peer closes the connection; the reader fails the request in flight, and before it stores
`terminal` the freed permit lets another request onto the wire. -/
theorem inflight_exceeded :
    let cfg : ForwarderConfig := ⟨"10.0.0.2:7946", 1, by decide⟩
    (exec (step cfg) (start cfg)
      [.call 1, .acquire 1, .enqueue 1, .recv, .check, .push, .wire, .sent, .call 2, .peerClosed,
        .readerFailAll, .acquire 2, .enqueue 2, .recv, .check, .push, .wire]).map
          (fun c => (c.written, c.replies.length, c.unanswered, cfg.inflightPerConn)) =
      some ([1, 2], 0, 2, 1) :=
  rfl

end PoolConn

end Kamino
