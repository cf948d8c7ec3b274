import Kamino.Lib.Runs
import Kamino.Session

/-!
# Access control over a session

Only `AUTH` and `HELLO` change who a connection is, and only on a credential: the password makes it
authenticated, the cluster secret makes it a peer too.
-/

namespace Kamino.Resp

open Runs Session Kamino.Resp.Command

def Command.credential : Command → Option Bytes
  | .auth _ password => some password
  | .hello args => args.auth.map (·.2)
  | _ => none

section Presented

variable (ctx : ServerContext) (parse : Frame → Except String Command)

def PresentsSecret (frame : Frame) : Prop :=
  ∃ cmd, parse frame = .ok cmd ∧ ctx.clusterSecret ≠ "" ∧
    cmd.credential = some (asBytes ctx.clusterSecret)

def PresentsPassword (frame : Frame) : Prop :=
  ∃ cmd, parse frame = .ok cmd ∧ cmd.credential = some (asBytes ctx.password)

end Presented

/-- The backend with every command handled as a client's. -/
def Backend.clientsOnly {W : Type} (b : Backend W) : Backend W :=
  { b with handle := fun _ => b.handle false }

variable {W : Type} {b : Backend W} {ctx : ServerContext} {st : Session}
  {parse : Frame → Except String Command}

section Credentials

/-- Who a connection may be after a command with that credential. -/
inductive Becomes (ctx : ServerContext) (st : Session) (credential : Option Bytes)
    (st' : Session) : Prop
  | same (hauth : st'.auth = st.auth) (hpeer : st'.internode = st.internode)
  | peer (hsecret : ctx.clusterSecret ≠ "")
    (hpresented : credential = some (asBytes ctx.clusterSecret))
  | client (hpresented : credential = some (asBytes ctx.password)) (hpeer : st'.internode = false)

theorem auth_becomes (username : Option Bytes) (password : Bytes) :
    Becomes ctx st (some password) (auth ctx st username password).2 := by
  unfold auth
  split_ifs with hsecret hnone huser hpass
  · exact .peer hsecret.1 (congrArg some hsecret.2)
  · exact .same rfl rfl
  · exact .same rfl rfl
  · exact .client (congrArg some hpass) rfl
  · exact .same rfl rfl

theorem helloReply_keeps (ctx : ServerContext) (st : Session) (args : HelloArgs) :
    (helloReply ctx st args).2.2.auth = st.auth
      ∧ (helloReply ctx st args).2.2.internode = st.internode := by
  obtain ⟨version, _, _ | name⟩ := args <;> (unfold helloReply; dsimp only; split) <;>
    exact ⟨rfl, rfl⟩

theorem Becomes.congr {credential : Option Bytes} {st' st'' : Session}
    (h : Becomes ctx st credential st') (hauth : st''.auth = st'.auth)
    (hpeer : st''.internode = st'.internode) : Becomes ctx st credential st'' := by
  cases h with
  | same h₁ h₂ => exact .same (hauth.trans h₁) (hpeer.trans h₂)
  | peer h₁ h₂ => exact .peer h₁ h₂
  | client h₁ h₂ => exact .client h₁ (hpeer.trans h₂)

theorem hello_becomes (args : HelloArgs) :
    Becomes ctx st (args.auth.map (·.2)) (hello ctx st args).2.2 := by
  unfold hello
  rcases args.auth with _ | ⟨username, password⟩
  · dsimp only
    split_ifs
    · exact .same rfl rfl
    · obtain ⟨hauth, hpeer⟩ := helloReply_keeps ctx st args
      exact .same hauth hpeer
  have h : Becomes ctx st (some password) (auth ctx st username password).2 :=
    auth_becomes username password
  dsimp only
  split_ifs
  · exact h
  · obtain ⟨hauth, hpeer⟩ := helloReply_keeps ctx (auth ctx st username password).2 args
    exact h.congr hauth hpeer

theorem handleCommand_becomes (w : W) (cmd : Command) :
    Becomes ctx st cmd.credential (handleCommand b ctx st w cmd).2.2.1 := by
  cases cmd with
  | auth username password => exact auth_becomes username password
  | hello args => exact hello_becomes args
  | _ => exact .same rfl rfl

theorem dispatch_becomes (w : W) (cmd : Command) :
    Becomes ctx st cmd.credential (dispatch b ctx st w cmd).2.2.1 := by
  unfold dispatch
  split_ifs
  any_goals exact .same rfl rfl
  all_goals
    split
    · exact .same rfl rfl
    · exact handleCommand_becomes w cmd

end Credentials

section Runs

variable {turns : List (Frame × W)}

theorem sessionStep_becomes {turn : Frame × W} {st' : Session}
    (h : sessionStep b ctx parse st turn = some st') :
    st' = st ∨ ∃ cmd, parse turn.1 = .ok cmd ∧ Becomes ctx st cmd.credential st' := by
  unfold sessionStep serve at h
  rcases hp : parse turn.1 with err | cmd <;> simp only [hp] at h
  · exact .inl (Option.some.inj h).symm
  refine .inr ⟨cmd, rfl, ?_⟩
  have hb : Becomes ctx st cmd.credential (dispatch b ctx st turn.2 cmd).2.2.1 :=
    dispatch_becomes turn.2 cmd
  rcases hd : dispatch b ctx st turn.2 cmd with ⟨frames, _ | _ | _, st₁, w⟩ <;>
    simp only [hd] at h hb
  · cases h
    exact hb
  · cases h
    exact hb.congr rfl rfl
  · cases h

theorem auth_of_not_presented (h : exec (sessionStep b ctx parse) (.start ctx) turns = some st)
    (hnone : ∀ turn ∈ turns, ¬ PresentsPassword ctx parse turn.1
      ∧ ¬ PresentsSecret ctx parse turn.1) :
    st.auth = (start ctx).auth := by
  have hstep : ∀ (s : Session) (turn : Frame × W) (s' : Session), s.auth = (start ctx).auth →
      ¬ PresentsPassword ctx parse turn.1 ∧ ¬ PresentsSecret ctx parse turn.1 →
      sessionStep b ctx parse s turn = some s' → s'.auth = (start ctx).auth := by
    intro s turn s' hinv hno hs
    obtain rfl | ⟨cmd, hcmd, hb⟩ := sessionStep_becomes hs
    · exact hinv
    cases hb with
    | same hauth _ => exact hauth.trans hinv
    | peer hsecret hpresented => exact absurd ⟨cmd, hcmd, hsecret, hpresented⟩ hno.2
    | client hpresented _ => exact absurd ⟨cmd, hcmd, hpresented⟩ hno.1
  exact exec_invariant hstep rfl hnone h

theorem internode_of_not_presented (h : exec (sessionStep b ctx parse) (.start ctx) turns = some st)
    (hnone : ∀ turn ∈ turns, ¬ PresentsSecret ctx parse turn.1) : st.internode = false := by
  have hstep : ∀ (s : Session) (turn : Frame × W) (s' : Session), s.internode = false →
      ¬ PresentsSecret ctx parse turn.1 → sessionStep b ctx parse s turn = some s' →
      s'.internode = false := by
    intro s turn s' hinv hno hs
    obtain rfl | ⟨cmd, hcmd, hb⟩ := sessionStep_becomes hs
    · exact hinv
    cases hb with
    | same _ hpeer => exact hpeer.trans hinv
    | peer hsecret hpresented => exact absurd ⟨cmd, hcmd, hsecret, hpresented⟩ hno
    | client _ hpeer => exact hpeer
  exact exec_invariant hstep rfl hnone h

end Runs

section Gates

theorem serve_unauthenticated {frame : Frame} {cmd : Command} (hparse : parse frame = .ok cmd)
    (hauth : st.auth = .unauthenticated) (hcmd : cmd.isPreAuthCommand = false) (w : W) :
    serve b ctx st parse frame w = ⟨[noauth], false, st, w⟩ := by
  have hd : dispatch b ctx st w cmd = ([noauth], .continued, st, w) := by
    simp [dispatch, isAuthed, hauth, hcmd]
  simp [serve, hparse, hd]

theorem serve_internal {frame : Frame} {cmd : Command} (hparse : parse frame = .ok cmd)
    (hsecret : ctx.clusterSecret ≠ "") (hpeer : st.internode = false)
    (hcmd : cmd.isInternal = true) :
    ∃ refusal : String, ∀ w : W,
      serve b ctx st parse frame w = ⟨[.error refusal], false, st, w⟩ := by
  have hpre : cmd.isPreAuthCommand = false := by
    cases cmd <;> first | rfl | cases hcmd
  have hno : isInternalAllowed ctx st cmd = false := by
    simp [isInternalAllowed, hcmd, hsecret, hpeer]
  by_cases hauth : st.auth = .unauthenticated
  · exact ⟨_, serve_unauthenticated hparse hauth hpre⟩
  refine ⟨"NOPERM INTERNAL.NODE.* requires cluster_secret auth", fun w => ?_⟩
  have hd : dispatch b ctx st w cmd = ([nopermInternal], .continued, st, w) := by
    simp [dispatch, isAuthed, hauth, hno]
  simp [serve, hparse, hd, nopermInternal]

theorem serve_clientsOnly (hpeer : st.internode = false) (frame : Frame) (w : W) :
    serve b ctx st parse frame w = serve b.clientsOnly ctx st parse frame w := by
  have hh : ∀ cmd, handleCommand b ctx st w cmd = handleCommand b.clientsOnly ctx st w cmd := by
    intro cmd
    cases cmd <;> simp [handleCommand, Backend.clientsOnly, hpeer]
  have hd : ∀ cmd, dispatch b ctx st w cmd = dispatch b.clientsOnly ctx st w cmd := by
    intro cmd
    simp only [dispatch, hh]
    rfl
  simp [serve, hd]

end Gates

/-- Nothing but `PING`, `AUTH`, `HELLO` and `QUIT` reaches the world before a credential was
presented, and nobody is a peer before the cluster secret was: the reply to a refused command and
the session after it are the same in every world, and the world stays as it is. -/
theorem session_access {turns : List (Frame × W)} {frame : Frame} {cmd : Command}
    (h : exec (sessionStep b ctx parse) (.start ctx) turns = some st)
    (hparse : parse frame = .ok cmd) :
    (ctx.password ≠ "" →
      (∀ turn ∈ turns, ¬ PresentsPassword ctx parse turn.1 ∧ ¬ PresentsSecret ctx parse turn.1) →
      cmd.isPreAuthCommand = false →
      ∀ w, serve b ctx st parse frame w = ⟨[noauth], false, st, w⟩)
    ∧ (ctx.clusterSecret ≠ "" → (∀ turn ∈ turns, ¬ PresentsSecret ctx parse turn.1) →
      (cmd.isInternal = true → ∃ refusal : String, ∀ w,
        serve b ctx st parse frame w = ⟨[.error refusal], false, st, w⟩)
      ∧ st.internode = false
      ∧ ∀ w, serve b ctx st parse frame w = serve b.clientsOnly ctx st parse frame w) := by
  refine ⟨fun hpassword hnone hcmd => ?_, fun hsecret hnone => ?_⟩
  · have hauth := auth_of_not_presented h hnone
    rw [start, new, if_pos (decide_eq_true hpassword)] at hauth
    exact serve_unauthenticated hparse hauth hcmd
  · have hpeer := internode_of_not_presented h hnone
    exact ⟨serve_internal hparse hsecret hpeer, hpeer, serve_clientsOnly hpeer frame⟩

def guarded : ServerContext := { password := "pw", clusterSecret := "s", version := "0", id := 1 }

def twoCommands : Frame → Except String Command
  | .array (some [_, .bulk (some password)]) => .ok (.auth none password)
  | .array (some [_, .bulk (some channel), .bulk (some message)]) =>
    .ok (.internalNodePublish channel message)
  | _ => .error "unknown command"

def counting : Backend ℕ :=
  { memberQuorumOk := fun _ => true, routeKey := fun _ _ _ => none,
    handle := fun _ _ pubSub w => ([.integer 0], pubSub, w + 1) }

def wrongAuth : Frame := .array (some [.bulk (some []), .bulk (some [0])])

def publishFrame : Frame := .array (some [.bulk (some []), .bulk (some []), .bulk (some [])])

/-- A wrong password and then `INTERNAL.NODE.PUBLISH`. -/
theorem session_access_wrong_password :
    (∀ w, serve counting guarded (.start guarded) twoCommands publishFrame w
      = ⟨[noauth], false, .start guarded, w⟩)
    ∧ ∃ refusal : String, ∀ w, serve counting guarded (.start guarded) twoCommands publishFrame w
      = ⟨[.error refusal], false, .start guarded, w⟩ := by
  have hsecret : ∀ turn ∈ [(wrongAuth, 0)], ¬ PresentsSecret guarded twoCommands turn.1 := by
    rintro _ (_ | ⟨_, ⟨⟩⟩) ⟨_, ⟨⟩, -, hpresented⟩
    exact absurd hpresented (by decide +kernel)
  have hpassword : ∀ turn ∈ [(wrongAuth, 0)], ¬ PresentsPassword guarded twoCommands turn.1 := by
    rintro _ (_ | ⟨_, ⟨⟩⟩) ⟨_, ⟨⟩, hpresented⟩
    exact absurd hpresented (by decide +kernel)
  have h := @session_access ℕ counting guarded (.start guarded) twoCommands [(wrongAuth, 0)]
    publishFrame (.internalNodePublish [] []) rfl rfl
  exact ⟨h.1 (by decide) (fun turn ht => ⟨hpassword turn ht, hsecret turn ht⟩) rfl,
    (h.2 (by decide) hsecret).1 rfl⟩

section Rejected

variable (ctx st)

theorem auth_rejected {username : Option Bytes} {password : Bytes}
    (h : (auth ctx st username password).1.isError) : (auth ctx st username password).2 = st := by
  unfold auth at h ⊢
  split_ifs at h ⊢ <;> first | rfl | cases h

theorem auth_frame (username : Option Bytes) (password : Bytes) :
    (auth ctx st username password).2.clientName = st.clientName ∧
      (auth ctx st username password).2.version = st.version ∧
      ((auth ctx st username password).2 ≠ st →
        (auth ctx st username password).2.auth = .authenticated) := by
  unfold auth
  split_ifs <;> simp

def noproto (version : UInt32) : Frame :=
  .error ("NOPROTO unsupported protocol version " ++ toString version.toNat)

theorem helloReply_rejected {args : HelloArgs} (h : (helloReply ctx st args).1.isError) :
    ∃ version, helloReply ctx st args = (noproto version, .continued, st) := by
  unfold helloReply at h ⊢
  dsimp only at h ⊢
  split at h
  · cases h
  · cases h
  · cases h
  · rename_i version _ _ _
    exact ⟨version, rfl⟩

/-- A refused `HELLO` has tried the credentials that came with it, and if that made a difference
refuses the version. -/
theorem hello_rejected {args : HelloArgs} (h : (hello ctx st args).1.isError) :
    (hello ctx st args).2 =
        (.continued, args.auth.elim st fun login => (auth ctx st login.1 login.2).2) ∧
      ∀ username password, args.auth = some (username, password) →
        (auth ctx st username password).2 ≠ st →
          ∃ version, (hello ctx st args).1 = noproto version := by
  unfold hello at h ⊢
  revert h
  rcases args.auth with _ | ⟨username, password⟩ <;> dsimp only <;> split_ifs with hc <;> intro h
  · exact ⟨rfl, nofun⟩
  · obtain ⟨version, hreply⟩ := helloReply_rejected ctx st h
    rw [hreply]
    exact ⟨rfl, nofun⟩
  · refine ⟨rfl, ?_⟩
    rintro _ _ ⟨⟩ hne
    exact absurd (auth_rejected ctx st hc) hne
  · obtain ⟨version, hreply⟩ := helloReply_rejected ctx _ h
    rw [hreply]
    exact ⟨rfl, fun _ _ _ _ => ⟨version, rfl⟩⟩

/-- Nothing but pub/sub mode keeps the command from its handler. -/
theorem dispatch_preAuth {w : W} {cmd : Command} (hcmd : cmd.isPreAuthCommand)
    (hmode : st.inPubsubMode = false) : dispatch b ctx st w cmd = handleCommand b ctx st w cmd := by
  cases cmd <;> simp [isPreAuthCommand] at hcmd <;>
    simp [dispatch, hmode, isPreAuthCommand, isInternalAllowed, isInternal,
      isDmapOp, checkRouting, routedKey]

/-- A connection that a refused `AUTH` or `HELLO` leaves: `HELLO` tries the credentials that come
with it before it looks at the version. -/
theorem rejected_login_iff {frame : Frame} {cmd : Command} {w : W} {out : Served W}
    (hparse : parse frame = .ok cmd) (hserve : serve b ctx st parse frame w = out)
    (hrefused : ∀ reply ∈ out.frames, reply.isError) :
    (∀ username password, cmd = .auth username password → out.session = st)
    ∧ ∀ args, cmd = .hello args → (out.session = st ↔
      st.inPubsubMode ∨ ∀ username password, args.auth = some (username, password) →
        (auth ctx st username password).2 = st)
      ∧ (out.session ≠ st → ∃ username password version,
        args.auth = some (username, password) ∧ out.frames = [noproto version] ∧
        out.session = (auth ctx st username password).2 ∧ out.session.auth = .authenticated)
      ∧ out.session.clientName = st.clientName ∧ out.session.version = st.version := by
  subst hserve
  simp only [serve, hparse] at hrefused ⊢
  rcases hmode : st.inPubsubMode with _ | _
  · have hpass := @dispatch_preAuth W b ctx st w cmd
    refine ⟨?_, ?_⟩
    · rintro username password rfl
      rw [hpass rfl hmode] at hrefused ⊢
      exact auth_rejected ctx st (hrefused _ List.mem_cons_self)
    rintro args rfl
    rw [hpass rfl hmode, handleCommand] at hrefused ⊢
    have hleft := @hello_rejected ctx st args
    generalize hello ctx st args = answer at hrefused hleft ⊢
    rcases answer with ⟨reply, _ | _ | _, st'⟩ <;>
      obtain ⟨hst, hreply⟩ := hleft (hrefused _ List.mem_cons_self) <;> cases hst
    rcases hauth : args.auth with _ | ⟨username, password⟩
    · simp
    · obtain ⟨hname, hversion, hnew⟩ := auth_frame ctx st username password
      refine ⟨by simp, fun hne => ?_, hname, hversion⟩
      obtain ⟨version, rfl⟩ := hreply username password hauth hne
      exact ⟨username, password, version, rfl, rfl, rfl, hnew hne⟩
  · refine ⟨?_, ?_⟩ <;> rintro _ <;> intros <;> subst cmd <;>
      simp [dispatch, hmode, isPreAuthCommand, isInternalAllowed, isInternal, isPubsubModeAllowed]

end Rejected

def helloNine (password : String) : Frame → Except String Command := fun _ =>
  .ok (.hello { protocolVersion := some 9, auth := some (none, asBytes password) })

theorem rejected_login_wrong_password :
    (serve counting guarded (.start guarded) (helloNine "no") (.integer 0) 0).session
      = .start guarded := by
  have hlogin : ∀ username password, (some (none, asBytes "no") : Option (Option Bytes × Bytes))
      = some (username, password) →
      (auth guarded (.start guarded) username password).2 = .start guarded := by
    rintro _ _ ⟨⟩
    rfl
  exact ((@rejected_login_iff ℕ counting guarded (.start guarded) (helloNine "no") (.integer 0)
    _ 0 _ rfl rfl (by decide)).2 _ rfl).1.2 (.inr hlogin)

/-- `HELLO 9 AUTH default pw` is refused and logs the client in. -/
theorem rejected_login_authenticates :
    ((serve counting guarded (.start guarded) (helloNine "pw") (.integer 0) 0).frames.all
        Frame.isError
      ∧ (start guarded).auth = .unauthenticated
      ∧ (serve counting guarded (.start guarded) (helloNine "pw") (.integer 0) 0).session.auth
        = .authenticated) := by
  decide

end Kamino.Resp
