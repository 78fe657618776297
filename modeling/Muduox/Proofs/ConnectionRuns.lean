import Muduox.Proofs.ServerBase

/-!
# One connection in a run of the server

The results about connections follow one connection through the steps of a
whole server. For it a step is one of three things (`ConnStep`): a piece of its
own code, on top of some stack; something else, which changes no more of it than
`revents_`; or its construction. The pieces that only continue another piece
(`follows`) come and go with the first kind alone.

The ones of those that stand right behind a call of the poller (`immediate`)
have nothing but that call on top of them: no user code and no handler runs
before they do.
-/

namespace Muduox.Net

/-- The pieces that are reached from another piece of the same connection only. -/
def ConnCode.follows : ConnCode → Bool
  | .connectionCallback | .resetSocket | .writeCompleteCallback | .shutdownIfDisconnecting
  | .storeShutdown | .forceCloseIfDisconnecting | .storeForceClose => true
  | _ => false

/-- The pieces that run before anything else can. -/
def ConnCode.immediate : ConnCode → Bool
  | .connectionCallback | .resetSocket | .writeCompleteCallback => true
  | _ => false

/-- The code the server makes functors of. -/
def Job : Code → Prop
  | .conn _ .connectEstablished | .conn _ .connectDestroyed | .conn _ .handleClose
  | .conn _ (.sendInLoop _) | .conn _ .shutdownInLoop => True
  | .removeConnectionInLoop _ | .listen => True
  | _ => False

/-- What a functor consists of: user code, or one job; `connectDestroyed` is
never one that may run at once. -/
def Wrapped : Frame Code → Prop
  | .runInLoop _ cb =>
      cb = .user ∨ ∃ a, cb = .code a ∧ Job a ∧ ∀ c, a ≠ .conn c .connectDestroyed
  | .queueInLoop _ cb | .functor _ cb => cb = .user ∨ ∃ a, cb = .code a ∧ Job a
  | _ => True

namespace TcpServer

open Threads Reactor TcpConnection

variable {P E : Type} {cfg : ServerConfig} {poller : Poller P E}

theorem wrapped_closed : Closed Wrapped where
  leaf f hf := by
    cases f with
    | runInLoop l cb => exact absurd rfl (hf l cb).1
    | queueInLoop l cb => exact absurd rfl (hf l cb).2.1
    | functor l cb => exact absurd rfl (hf l cb).2.2
    | _ => trivial
  user _ := ⟨.inl rfl, .inl rfl⟩
  run {l cb} h := by
    rcases h with rfl | ⟨a, rfl, ha, _⟩
    · exact ⟨trivial, .inl rfl⟩
    · exact ⟨trivial, .inr ⟨a, rfl, ha⟩⟩
  queue h := h
  functor {l cb} h := by
    rcases h with rfl | ⟨a, rfl, _⟩ <;> trivial

theorem connRuns_wrapped {c : ConnId} {t : ThreadId} {x x' : TcpConnection} {k : ConnCode}
    {io : Io E} {evs : List Event} {next : List (Frame Code)}
    (h : x.Runs c t k io x' evs next) : ∀ g ∈ next, Wrapped g := by
  intro g hg
  cases h.leaves g hg with
  | sendThere | shutdownInLoop => exact .inr ⟨_, rfl, trivial, by simp⟩
  | forceCloseInLoop => exact .inr ⟨_, rfl, trivial⟩
  | _ => trivial

theorem runs_wrapped {t : ThreadId} {a : Code} {io : Io E} {s s' : TcpServer P}
    {next : List (Frame Code)} (h : Runs cfg poller t s a io s' next) :
    ∀ g ∈ next, Wrapped g := by
  cases h with
  | conn h => exact connRuns_wrapped h
  | handleEvent =>
      intro g hg
      obtain ⟨a, _, rfl⟩ := List.mem_map.mp hg
      trivial
  | removeConnectionInLoop =>
      intro g hg
      rw [mem_removeConnectionInLoop hg]
      simp [Wrapped, Job]
  | _ => simp [TcpServer.listen, TcpServer.newConnection, Wrapped, Job]

theorem wrapped_started : Static Wrapped (started poller) := by
  refine ⟨fun t f hf => ?_, fun _ _ hq => by cases hq⟩
  rcases started_cases hf with ⟨l, rfl⟩ | rfl | rfl
  · trivial
  · exact .inr ⟨_, rfl, trivial, by simp⟩
  · trivial

/-- Every functor of a run is one the server makes, or user code. -/
theorem wrapped {C : State P → ThreadId × Choice Code (Io E) → Prop} {s : State P}
    (h : (lts cfg poller).ReachIf C s) : Static Wrapped s :=
  run_inv h wrapped_started fun _ hI _ hs =>
    hI.step wrapped_closed hs fun hx => runs_wrapped (exec_runs hx)

/-! ## The step of one connection -/

/-- What one step of the server is to connection `c`. -/
inductive ConnStep (cfg : ServerConfig) (c : ConnId) (t : ThreadId) (ch : Choice Code (Io E))
    (s s' : State P) : Prop
  | piece {k : ConnCode} {io : Io E} {evs : List Event} {next rest : List (Frame Code)}
      (ht : s.stack t = TcpConnection.piece c k :: rest) (hch : ch = .app io)
      (hr : (s.shared.app.conn c).Runs c t k io (s'.shared.app.conn c) evs next)
      (hlog : s'.shared.app.log c = s.shared.app.log c ++ .ran k :: evs)
      (hs' : s' = s.resume t s'.shared next rest)
  | idle (h : Idle (s.shared.app.conn c) (s.shared.app.log c) (s'.shared.app.conn c)
        (s'.shared.app.log c))
      (hstack : ∀ u k, k.follows = true →
        (TcpConnection.piece c k ∈ s'.stack u ↔ TcpConnection.piece c k ∈ s.stack u))
      (hcode : ∀ k rest, s.stack t ≠ TcpConnection.piece c k :: rest)
  | new (hc : c = s.shared.app.accepted) (hconn : New cfg (s'.shared.app.conn c))
      (hlog : s'.shared.app.log c = [])
      (hstack : ∀ u k, TcpConnection.piece c k ∉ s'.stack u)

theorem job_not_follows {c : ConnId} {k : ConnCode} (h : Job (.conn c k)) :
    k.follows = false := by
  cases k <;> first | rfl | exact h.elim

theorem api_not_follows {c : ConnId} {k : ConnCode} {t : ThreadId} {s : TcpServer P}
    (h : api t s (.conn c k) = true) : k.follows = false := by
  cases k <;> first | rfl | cases h

theorem connRuns_follows {c d : ConnId} {t : ThreadId} {x x' : TcpConnection} {k j : ConnCode}
    {io : Io E} {evs : List Event} {next : List (Frame Code)} (h : x.Runs d t k io x' evs next)
    (hmem : TcpConnection.piece c j ∈ next) : c = d := by
  cases h with
  | sendBufferHere | sentPart | queued => exact absurd hmem piece_notMem_updateUnlessWriting
  | _ =>
      simp at hmem <;> first | exact hmem.1 | exact hmem.elim And.left And.left

/-- A piece that follows is left by a piece of its own connection. -/
theorem runs_follows {c : ConnId} {t : ThreadId} {a : Code} {io : Io E} {s s' : TcpServer P}
    {next : List (Frame Code)} {k : ConnCode} (h : Runs cfg poller t s a io s' next)
    (hk : k.follows = true) (hmem : TcpConnection.piece c k ∈ next) : ∃ j, a = .conn c j := by
  cases h with
  | conn h =>
      rw [connRuns_follows h hmem]
      exact ⟨_, rfl⟩
  | handleEvent =>
      rcases mem_handleEvent hmem with ⟨_, he⟩ | ⟨_, _, _, he, hj⟩
      · cases he
      · cases he
        rcases hj with ⟨_, rfl⟩ | ⟨_, rfl⟩ | ⟨_, rfl⟩ | ⟨_, rfl⟩ <;> cases hk
  | removeConnectionInLoop => cases mem_removeConnectionInLoop hmem
  | _ => simp [TcpServer.listen, TcpServer.newConnection] at hmem

/-- A step of other code, as the stacks of connection `c` go. -/
theorem mem_resume_iff {s : State P} {t u : ThreadId} {f g : Frame Code}
    {x : Reactor Code (TcpServer P)} {next rest : List (Frame Code)}
    (ht : s.stack t = f :: rest) (hf : g ≠ f) (hnext : g ∉ next) :
    g ∈ (s.resume t x next rest).stack u ↔ g ∈ s.stack u := by
  constructor
  · intro hg
    rcases Config.mem_of_mem_resume ht hg with ⟨_, hnew⟩ | hold
    · exact absurd hnew hnext
    · exact hold
  · exact fun hg => Config.mem_resume ht hg (.inl hf)

/-- What `poll` has dispatched are calls of `handleEvent`. -/
theorem polled_handleEvent {l : LoopId} {io : Io E} {s s' : TcpServer P} {b : Code}
    {codes : List Code} (h : (app cfg poller).poll l io s = some (s', some codes))
    (hb : b ∈ codes) : ∃ ch, b = .handleEvent ch :=
  poll_codes h b hb

/-- Every step is one of the three things to every connection. -/
theorem step_conn {s s' : State P} {t : ThreadId} {ch : Choice Code (Io E)}
    (hs : (lts cfg poller).step s (t, ch) = some s') (hbase : AppInv (Base poller) Bound s)
    (hwrap : Static Wrapped s) (c : ConnId) : ConnStep cfg c t ch s s' := by
  obtain ⟨f, rest, x, next, ht, hr, rfl⟩ := step_runs hs
  have hf : f ∈ s.stack t := by rw [ht]; exact List.mem_cons_self
  -- The steps that run no code of the server's.
  have hquiet : x.app = s.shared.app → (∀ a, f ≠ .code a) →
      (∀ k, k.follows = true → TcpConnection.piece c k ∉ next) →
      ConnStep cfg c t ch s (s.resume t x next rest) := by
    intro hx hcode hnext
    refine .idle ?_ (fun u k hk => mem_resume_iff ht (Ne.symm (hcode _)) (hnext k hk))
      fun k r he => hcode _ (List.cons.inj (ht.symm.trans he)).1
    rw [Config.resume_shared, hx]
    exact .same
  have hfunctor : ∀ {cb : Frame Code}, (cb = .user ∨ ∃ a, cb = .code a ∧ Job a) →
      ∀ k, k.follows = true → TcpConnection.piece c k ∉ [cb] := by
    rintro cb hcb k hk hmem
    rw [← List.mem_singleton.mp hmem] at hcb
    rcases hcb with he | ⟨a, he, ha⟩
    · cases he
    · rw [← Frame.code.inj he] at ha
      rw [job_not_follows ha] at hk
      cases hk
  cases hr with
  | @call a ha =>
      refine hquiet rfl (by simp) fun k hk hmem => ?_
      simp only [List.mem_cons, List.not_mem_nil, or_false] at hmem
      rcases hmem with he | he
      · rw [← Frame.code.inj he] at ha
        rw [api_not_follows ha] at hk
        cases hk
      · cases he
  | @code a io x next hx =>
      have hruns := exec_runs hx
      have hbound : Bound t a s.shared.app := hbase.all.stack t _ hf _ rfl
      cases runs_touches hruns c with
      | piece h hlog => exact .piece ht rfl h hlog rfl
      | idle ha h =>
          refine .idle h (fun u k hk => mem_resume_iff ht (fun he => ?_) fun hmem => ?_)
            fun k r he => ?_
          · exact ha k (Frame.code.inj he).symm
          · obtain ⟨j, hj⟩ := runs_follows hruns hk hmem
            exact ha j hj
          · exact ha k (Frame.code.inj (List.cons.inj (ht.symm.trans he)).1)
      | new hc h hlog =>
          refine .new hc h (hlog.trans (hbase.app.fresh c (Nat.le_of_eq hc.symm)))
            fun u k hmem => ?_
          -- Nothing names a connection that was not there.
          rcases Config.mem_of_mem_resume ht hmem with ⟨_, hnew⟩ | hold
          · cases hruns
            simp [TcpServer.newConnection] at hnew
          · have hb : Bound u (.conn c k) s.shared.app := hbase.all.stack u _ hold _ rfl
            exact absurd hb.1 (by rw [hc]; exact Nat.lt_irrefl _)
  | runHere =>
      exact hquiet rfl (by simp) (hfunctor (wrapped_closed.run (hwrap.stack t _ hf)).2)
  | functor => exact hquiet rfl (by simp) (hfunctor (hwrap.stack t _ hf))
  | polling hx =>
      exact .idle (poll_idle hx c) (fun u k _ => mem_resume_iff ht (by simp) (by simp))
        (by simp [ht])
  | polled hx =>
      refine .idle (poll_idle hx c) (fun u k _ => mem_resume_iff ht (by simp) fun hmem => ?_)
        (by simp [ht])
      rcases mem_iteration hmem with ⟨b, hb, he⟩ | he | he | he <;> cases he
      obtain ⟨_, he⟩ := polled_handleEvent hx hb
      cases he
  | doPendingFunctors =>
      refine hquiet rfl (by simp) fun k _ hmem => ?_
      obtain ⟨_, _, he⟩ := List.mem_map.mp hmem
      cases he
  | _ => exact hquiet rfl (by simp) (by simp)

/-- What is new in the history is the piece on top. -/
theorem conn_ran {s s' : State P} {t : ThreadId} {ch : Choice Code (Io E)} {c : ConnId}
    {k : ConnCode} (h : ConnStep cfg c t ch s s')
    (hran : .ran k ∈ s'.shared.app.log c) :
    .ran k ∈ s.shared.app.log c ∨ ∃ rest, s.stack t = TcpConnection.piece c k :: rest := by
  cases h with
  | piece ht hch hr hlog =>
      rw [hlog] at hran
      rcases List.mem_append.mp hran with hran | hran
      · exact .inl hran
      · rcases List.mem_cons.mp hran with he | he
        · cases he
          exact .inr ⟨_, ht⟩
        · exact absurd he ((connRuns_events hr).1 _)
  | idle hi =>
      rcases hi.log with he | ⟨b, he⟩ <;> rw [he] at hran
      · exact .inl hran
      · exact .inl (by simpa using hran)
  | new _ _ hlog =>
      rw [hlog] at hran
      cases hran

/-- Only `connectEstablished` connects. -/
theorem connRuns_connected {c : ConnId} {t : ThreadId} {x x' : TcpConnection} {k : ConnCode}
    {io : Io E} {evs : List Event} {next : List (Frame Code)} (h : x.Runs c t k io x' evs next)
    (hk : k ≠ .connectEstablished) (hs : x.state_ ≠ .kConnected) : x'.state_ ≠ .kConnected := by
  cases h with
  | connectEstablished => exact absurd rfl hk
  | handleClose | storeShutdown | storeForceClose => simp
  | sendBufferHere _ _ hx | sentPart _ _ _ _ _ hx | queued _ _ hx => rwa [hx.state]
  | _ => exact hs

/-! ## What runs right behind the poller -/

/-- A piece that runs before anything else can. -/
def immediate : Frame Code → Bool
  | .code (.conn _ k) => k.immediate
  | _ => false

/-- A call of the poller. -/
def pollerCall : Frame Code → Bool
  | .code (.update _) | .code (.remove _) => true
  | _ => false

/-- Only calls of the poller come before an immediate piece. -/
def Prompt (g b : Frame Code) : Prop := immediate b = true → pollerCall g = true

theorem pairwise_prompt {l : List (Frame Code)} (h : ∀ g ∈ l, immediate g = false) :
    l.Pairwise Prompt := by
  refine List.pairwise_of_forall_mem_list fun _ _ b hb hi => ?_
  rw [h b hb] at hi
  cases hi

theorem connRuns_prompt {c : ConnId} {t : ThreadId} {x x' : TcpConnection} {k : ConnCode}
    {io : Io E} {evs : List Event} {next : List (Frame Code)}
    (h : x.Runs c t k io x' evs next) : next.Pairwise Prompt := by
  have hupd : (x.updateUnlessWriting c).Pairwise Prompt := by
    unfold updateUnlessWriting
    split <;> simp
  cases h with
  | sendBufferHere | sentPart | queued => exact hupd
  | _ => simp [Prompt, immediate, pollerCall, ConnCode.immediate]

theorem runs_prompt {t : ThreadId} {a : Code} {io : Io E} {s s' : TcpServer P}
    {next : List (Frame Code)} (h : Runs cfg poller t s a io s' next) :
    next.Pairwise Prompt := by
  cases h with
  | conn h => exact connRuns_prompt h
  | handleEvent =>
      refine pairwise_prompt fun g hg => ?_
      rcases mem_handleEvent hg with
        ⟨_, rfl⟩ | ⟨_, _, _, rfl, ⟨_, rfl⟩ | ⟨_, rfl⟩ | ⟨_, rfl⟩ | ⟨_, rfl⟩⟩ <;>
          rfl
  | removeConnectionInLoop =>
      refine pairwise_prompt fun g hg => ?_
      rw [mem_removeConnectionInLoop hg]
      rfl
  | _ => simp [TcpServer.listen, TcpServer.newConnection]

theorem prompt_step {s s' : State P} {b : ThreadId × Choice Code (Io E)}
    (hs : (lts cfg poller).step s b = some s') (h : Ordered Prompt s) : Ordered Prompt s' := by
  obtain ⟨t, ch⟩ := b
  obtain ⟨f, rest, x, next, ht, hr, rfl⟩ := step_runs hs
  -- Over an immediate piece only the poller is called, which leaves nothing.
  have hover : (pollerCall f = true → next = []) →
      ∀ b ∈ rest, Prompt f b → ∀ g ∈ next, Prompt g b := by
    intro hp b _ hfb g hg hb
    rw [hp (hfb hb)] at hg
    cases hg
  cases hr with
  | @code a io x next hx =>
      have hruns := exec_runs hx
      refine h.resume ht (runs_prompt hruns) (hover fun hp => ?_)
      cases hruns <;> first | rfl | cases hp
  | polled hx =>
      refine h.resume ht (pairwise_prompt fun g hg => ?_) (hover fun hp => by cases hp)
      rcases mem_iteration hg with ⟨b, hb, rfl⟩ | rfl | rfl | rfl
      · obtain ⟨ch, rfl⟩ := polled_handleEvent hx hb
        rfl
      · rfl
      · rfl
      · rfl
  | doPendingFunctors =>
      refine h.resume ht (pairwise_prompt fun g hg => ?_) (hover fun hp => by cases hp)
      obtain ⟨_, _, rfl⟩ := List.mem_map.mp hg
      rfl
  | _ => exact h.resume ht (by simp [Prompt, immediate]) (hover fun hp => by cases hp)

theorem prompt_started : Ordered Prompt (started poller) := by
  intro t
  match t with
  | .loop l => exact List.pairwise_singleton ..
  | .user 0 => simp [started, Prompt, immediate]
  | .user (_ + 1) => exact List.pairwise_singleton ..

theorem prompt {C : State P → ThreadId × Choice Code (Io E) → Prop} {s : State P}
    (h : (lts cfg poller).ReachIf C s) : Ordered Prompt s :=
  run_inv h prompt_started fun _ hI _ hs => prompt_step hs hI

end TcpServer

end Muduox.Net
