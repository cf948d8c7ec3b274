import Kamino.Handlers
import Kamino.Proofs.Writes

/-!
# What a `DM.GET` reads and repairs

Both the fan-out and a whole call answer with the newest copy they have heard of.
-/

namespace Kamino

open Function List Option Prod

section Newest

variable {replies : List Read} {x : Bytes × Int64}

theorem pickHighestTs_concat_some (replies : List Read) (x : Bytes × Int64) :
    pickHighestTs (replies ++ [some x]) =
      if ∀ b ∈ pickHighestTs replies, b.2 ≤ x.2 then some x else pickHighestTs replies := by
  rcases hbest : pickHighestTs replies with _ | ⟨value, ts⟩ <;>
    simp [pickHighestTs, filterMap_append, foldl_append] at hbest ⊢ <;> simp [hbest]

theorem pickHighestTs_concat_none (replies : List Read) :
    pickHighestTs (replies ++ [none]) = pickHighestTs replies := by
  simp [pickHighestTs]

theorem mem_of_pickHighestTs (h : pickHighestTs replies = some x) : some x ∈ replies := by
  induction replies using List.reverseRecOn with
  | nil => cases h
  | append_singleton replies reply ih =>
    rcases reply with _ | y
    · rw [pickHighestTs_concat_none] at h
      simp [ih h]
    rw [pickHighestTs_concat_some] at h
    split_ifs at h
    · simp [h]
    · simp [ih h]

theorem le_pickHighestTs (h : some x ∈ replies) : ∃ b ∈ pickHighestTs replies, x.2 ≤ b.2 := by
  induction replies using List.reverseRecOn with
  | nil => simp at h
  | append_singleton replies reply ih =>
    rcases reply with _ | y
    · rw [pickHighestTs_concat_none]
      exact ih (by simpa using h)
    rw [pickHighestTs_concat_some]
    rcases mem_append.1 h with h | h
    · obtain ⟨b, hb, hxb⟩ := ih h
      split_ifs with hle
      · exact ⟨y, rfl, hxb.trans (hle b hb)⟩
      · exact ⟨b, hb, hxb⟩
    obtain rfl : x = y := by simpa using h
    split_ifs with hle
    · exact ⟨x, rfl, le_rfl⟩
    · push Not at hle
      obtain ⟨b, hb, hlt⟩ := hle
      exact ⟨b, hb, hlt.le⟩

/-- A reply by which `stale_replicas` has the peer repaired. -/
def behind (ts : Int64) : Except ClusterError ReadReply → Bool
  | .ok (.hit _ ts') => ts' < ts
  | .ok (.frame _) => true
  | .error _ => true

theorem staleReplicas_decoded (heard : List (SocketAddr × Except ClusterError ReadReply))
    (ts : Int64) :
    staleReplicas (heard.map fun p => (p.1, decodeGetWithTs p.2)) ts =
      (heard.filter fun p => behind ts p.2).map fst := by
  have hkeep : (fun p : SocketAddr × Read => p.2.all fun reply => decide (reply.2 < ts)) ∘
      (fun p : SocketAddr × Except ClusterError ReadReply => (p.1, decodeGetWithTs p.2)) =
        fun p => behind ts p.2 := by
    funext ⟨addr, reply⟩
    rcases reply with e | ⟨value, ts'⟩ | f <;> simp [decodeGetWithTs, behind]
  rw [staleReplicas, List.filter_map, List.map_map, hkeep]
  rfl

theorem staleReplicas_append (xs ys : List (SocketAddr × Read)) (ts : Int64) :
    staleReplicas (xs ++ ys) ts = staleReplicas xs ts ++ staleReplicas ys ts := by
  simp [staleReplicas]

section Slices

variable (settings : ReadSettings) (found : Read) (backups owners : List (SocketAddr × Read))

/-- The fan-out of replies that are still paired with their peers. -/
def fanOutPairs : Frame × Option Repair :=
  fanOutReply settings (backups.map fst) (owners.map fst) (backups.map snd) (owners.map snd) found

variable {settings found backups owners}

theorem fanOutPairs_none (h : pickHighestTs (backups.map snd ++ owners.map snd ++ [found]) = none) :
    fanOutPairs settings found backups owners = (.bulk none, none) := by
  unfold fanOutPairs fanOutReply
  simp only [h]

theorem fanOutPairs_some
    (h : pickHighestTs (backups.map snd ++ owners.map snd ++ [found]) = some x) :
    fanOutPairs settings found backups owners = (.bulk (some x.1),
      if settings.readRepair ∧ staleReplicas (backups ++ owners) x.2 ≠ [] then
        some ⟨staleReplicas (backups ++ owners) x.2, x.1, x.2⟩ else none) := by
  have hzip (l : List (SocketAddr × Read)) : (l.map fst).zip (l.map snd) = l :=
    (zip_of_prod rfl rfl).symm
  have hbackups : (backups.map snd ++ owners.map snd ++ [found]).take
      (backups.map fst).length = backups.map snd := by simp
  have howners : (if owners.map fst = [] then []
      else ((backups.map snd ++ owners.map snd ++ [found]).drop
        (backups.map fst).length).take (owners.map fst).length)
      = owners.map snd := by
    split_ifs with hnil
    · simp_all
    · simp
  unfold fanOutPairs fanOutReply
  simp only [h, hbackups, howners, hzip, staleReplicas_append]
  cases settings.readRepair <;> simp only [Bool.false_eq_true, if_false, if_true, false_and,
    true_and, ite_not, ne_eq]

end Slices

def decoded (heard : List (SocketAddr × Except ClusterError ReadReply)) :
    List (SocketAddr × Read) :=
  heard.map fun p => (p.1, decodeGetWithTs p.2)

theorem fanOutPairs_decoded (settings : ReadSettings) (found : Read)
    (backups owners : List (SocketAddr × Except ClusterError ReadReply)) :
    fanOutPairs settings found (decoded backups) (decoded owners) =
      fanOutReply settings (backups.map fst) (owners.map fst)
        ((backups.map snd).map decodeGetWithTs) ((owners.map snd).map decodeGetWithTs)
        found := by
  simp [fanOutPairs, decoded, comp_def]

/-- The fan-out answers with the newest of all copies, the node's own if it is among the newest, and
repairs every other peer it has no copy as new from. -/
theorem fanOut_newest (settings : ReadSettings) (found : Read)
    (backups owners : List (SocketAddr × Except ClusterError ReadReply)) :
    let outcome := fanOutReply settings (backups.map fst) (owners.map fst)
      ((backups.map snd).map decodeGetWithTs) ((owners.map snd).map decodeGetWithTs) found
    let replies := ((backups ++ owners).map snd).map decodeGetWithTs ++ [found]
    (∃ b, outcome.1 = .bulk b) ∧ (outcome.1 = .bulk none → ∀ reply ∈ replies, reply = none) ∧
      ∀ value, outcome.1 = .bulk (some value) →
        ∃ ts, some (value, ts) ∈ replies ∧ (∀ x, some x ∈ replies → x.2 ≤ ts) ∧
          (∀ repair ∈ outcome.2, repair.value = value ∧ repair.timestamp = ts) ∧
          (settings.readRepair = true → outcome.2.elim [] Repair.peers =
            ((backups ++ owners).filter fun p => behind ts p.2).map fst) := by
  intro outcome replies
  have hreplies : (decoded backups).map snd ++ (decoded owners).map snd ++ [found]
      = replies := by simp [replies, decoded, comp_def]
  have houtcome : outcome = fanOutPairs settings found (decoded backups) (decoded owners) :=
    (fanOutPairs_decoded settings found backups owners).symm
  rcases h : pickHighestTs replies with _ | ⟨value, ts⟩
  · rw [houtcome, fanOutPairs_none (hreplies ▸ h)]
    refine ⟨⟨none, rfl⟩, fun _ reply hmem => ?_, by simp⟩
    rcases reply with _ | x
    · rfl
    · obtain ⟨b, hb, -⟩ := le_pickHighestTs hmem
      rw [h] at hb
      cases hb
  rw [houtcome, fanOutPairs_some (hreplies ▸ h)]
  refine ⟨⟨some value, rfl⟩, by simp, fun value' hvalue => ?_⟩
  obtain rfl : value = value' := by simpa using hvalue
  refine ⟨ts, mem_of_pickHighestTs h, fun x hx => ?_, fun repair hrepair => ?_, fun hon => ?_⟩
  · obtain ⟨b, hb, hle⟩ := le_pickHighestTs hx
    rw [h, mem_some_iff] at hb
    rwa [← hb] at hle
  · dsimp only at hrepair
    split_ifs at hrepair
    · simp [← Option.some.inj hrepair]
    · cases hrepair
  have hstale : staleReplicas (decoded backups ++ decoded owners) ts
      = ((backups ++ owners).filter fun p => behind ts p.2).map fst := by
    rw [← staleReplicas_decoded, decoded, decoded, map_append]
  simp only [hon, true_and, hstale]
  split_ifs with hnil
  · rfl
  · simpa using (not_not.1 hnil).symm

/-- A backup whose request failed is sent a repair, although its copy may be as new as any. -/
theorem failed_peer_repaired : (fanOutReply ⟨1, true⟩ ["c"] []
    ((([("c", .error (.serverGone "c"))] : List (SocketAddr × Except ClusterError ReadReply)).map
      snd).map decodeGetWithTs) [] (some ([118], 5))).2.elim [] Repair.peers = ["c"] := by
  decide

end Newest

section Whole

variable {env : Env} {settings : ReadSettings} {dmap key : Bytes} {ask : ℕ → SocketAddr → Read}
  {r : Routing} {found : Read}

/-- No copy has a stamp above that of `best`, which is one of them, or `none` if there is none. -/
structure IsNewest (best : Read) (copies : List Read) : Prop where
  mem : ∀ x ∈ best, some x ∈ copies
  le : ∀ x, some x ∈ copies → ∃ b ∈ best, x.2 ≤ b.2

theorem IsNewest.congr {best : Read} {copies copies' : List Read} (h : IsNewest best copies)
    (hsame : ∀ x, some x ∈ copies' ↔ some x ∈ copies) : IsNewest best copies' :=
  ⟨fun x hx => (hsame x).2 (h.mem x hx), fun x hx => h.le x ((hsame x).1 hx)⟩

namespace GetStage

def hearAll (asked : Asked Read) (f : SocketAddr → Read) : Asked Read :=
  asked.map fun p => (p.1, some (f p.1))

/-- The stage once the peers it asks have answered. -/
def hear (ask : ℕ → SocketAddr → Read) : GetStage → GetStage
  | .prior asked => .prior (hearAll asked (ask 0))
  | .backups found owners asked => .backups found owners (hearAll asked (ask 1))
  | .previous found replies asked => .previous found replies (hearAll asked (ask 2))
  | .done reply => .done reply

variable (env settings dmap key ask r) in
def round (s : GetStage × Option Repair) : GetStage × Option Repair :=
  ((s.1.hear ask).next env settings dmap key r).getD s

theorem answers_hearAll (f : SocketAddr → Read) : ∀ addrs : List SocketAddr,
    (hearAll (.start addrs) f).answers = some (addrs.map fun addr => (addr, f addr))
  | [] => rfl
  | addr :: addrs => congrArg (Option.map fun xs => (addr, f addr) :: xs) (answers_hearAll f addrs)

theorem round_fan (found : Read) :
    (round env settings dmap key ask r)^[2] (fan env settings dmap key r found, none)
      = (fanReply env settings dmap key ask r found).map .done id := by
  unfold fan fanReply
  dsimp only
  generalize (if settings.readRepair then r.previousOwnersForKey env dmap key else []) = owners
  split_ifs
  · rfl
  · rfl
  by_cases hnil : owners = [] <;>
    simp [round, hear, next, answers_hearAll, hnil, conclude, comp_def, Prod.map]

/-- The stages of a `DM.GET` end in the answer of the call that runs on its own. -/
theorem round_afterLocal (found : Read) :
    (round env settings dmap key ask r)^[3] (afterLocal env settings dmap key (some r) found, none)
      = (getReply env settings dmap key ask (some r) found).map .done id := by
  unfold afterLocal getReply
  dsimp only
  set owners := r.previousOwnersForKey env dmap key
  by_cases hprior : found = none ∧ owners ≠ []
  · rw [if_pos hprior, if_pos hprior.1, iterate_succ_apply, hprior.1]
    rcases hpick : pickHighestTs (owners.map (ask 0)) with _ | ⟨value, ts⟩
    · have hround : round env settings dmap key ask r (.prior (.start owners), none)
          = (fan env settings dmap key r none, none) := by
        simp [round, hear, next, answers_hearAll, comp_def, hpick]
      rw [hround, round_fan]
    have hround : round env settings dmap key ask r (.prior (.start owners), none)
        = (.done (.bulk (some value)), none) := by
      simp [round, hear, next, answers_hearAll, comp_def, hpick]
    rw [hround]
    rfl
  · have hrecovered :
        (if found = none then pickHighestTs (owners.map (ask 0)) else none) = none := by
      split_ifs with hfound
      · have hnil : owners = [] := by simpa [hfound] using hprior
        rw [hnil]
        rfl
      · rfl
    rw [if_neg hprior, iterate_succ_apply', round_fan, hrecovered]
    rfl

end GetStage

end Whole

end Kamino
