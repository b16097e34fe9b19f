import InfinibandWorkshop.Dependents
import InfinibandWorkshop.MultistreamLoop

/-!
# From `pp_init_ctx` to `pp_close_ctx`

multistreamTestRunner.c makes a device context, perhaps a completion channel, a protection
domain, a memory region, a completion queue and `peerNum` queue pairs, and destroys them
again at the end of a round. The device keeps track of what was made from what and
refuses to destroy an object that another one needs. Any call that makes or modifies
something may fail, and so may the allocation of memory.
-/
namespace InfinibandWorkshop.ContextLifetime

section Device

variable {H : Type} [DecidableEq H]

/-- How the device names a new object, while these are alive. -/
structure Allocator (H : Type) where
  pick : Finset H → H
  fresh : ∀ s, pick s ∉ s

/-- The objects, and the requests to destroy one: those served and those refused. -/
structure Device (H : Type) where
  pool : Pool H
  destroyed : List H
  refused : List H

def ebusy : ℤ := 16

/-- A call that makes an object from others, or fails. -/
def ibvCreate {ε : Type} (A : Allocator H) (granted : Bool) (e : ε) (deps : Finset H) :
    EStateM ε (Device H) H :=
  fun d =>
    if granted then
      .ok (A.pick d.pool.live)
        { d with pool := d.pool.create (A.pick d.pool.live) deps (A.fresh d.pool.live) }
    else .error e d

/-- A call that destroys an object, with its return value. -/
def ibvDestroy {ε : Type} (a : H) : EStateM ε (Device H) ℤ := fun d =>
  match d.pool.destroy a with
  | some pool => .ok 0 { d with pool := pool, destroyed := d.destroyed ++ [a] }
  | none => .ok ebusy { d with refused := d.refused ++ [a] }

end Device

section Source

variable {H : Type} [DecidableEq H]

/-- Which of the calls succeed. -/
structure Grants where
  ctx : Bool
  buf : Bool
  openDevice : Bool
  createCompChannel : Bool
  allocPd : Bool
  regMr : Bool
  createCq : Bool
  qpArr : Bool
  createQp : ℕ → Bool
  modifyQp : ℕ → Bool

/-- The exits of `pp_init_ctx`, by what could not be had. -/
inductive InitError
  | ctx
  | buf
  | context
  | channel
  | pd
  | mr
  | cq
  | qpArr
  | qp (i : ℕ)
  | modifyQp (i : ℕ)
  deriving DecidableEq, Repr

/-- And those of `pp_close_ctx`. -/
inductive CloseError
  | qp
  | cq
  | mr
  | pd
  | channel
  | context
  deriving DecidableEq, Repr

structure PingpongContext (H : Type) where
  context : H
  channel : Option H
  pd : H
  mr : H
  cq : H
  qpArr : Option (List (Option H))
  size : ℕ
  rxDepth : ℕ
  peerNum : ℕ
  sizePerQP : List ℤ

/-- `if (!ok) return NULL`. -/
def require {ε σ : Type} (ok : Bool) (e : ε) : EStateM ε σ Unit :=
  if ok then pure () else throw e

variable (A : Allocator H) (g : Grants)

/-- The channel, where completions are awaited by events. -/
def openChannel (useEvent : Bool) (context : H) : EStateM InitError (Device H) (Option H) :=
  if useEvent then do
    let channel ← ibvCreate A g.createCompChannel .channel {context}
    pure (some channel)
  else pure none

/-- The loop that creates the queue pairs. -/
def createQps (pd cq : H) : List ℕ → EStateM InitError (Device H) (List (Option H))
  | [] => pure []
  | i :: rest => do
    let qp ← ibvCreate A (g.createQp i) (.qp i) {pd, cq}
    let qps ← createQps pd cq rest
    pure (some qp :: qps)

/-- The loop that moves them to `INIT`. -/
def modifyQps : List ℕ → EStateM InitError (Device H) Unit
  | [] => pure ()
  | i :: rest => do
    require (g.modifyQp i) (.modifyQp i)
    modifyQps rest

def ppInitCtx (size rxDepth : ℕ) (useEvent : Bool) (peerNumber : ℕ) :
    EStateM InitError (Device H) (PingpongContext H) := do
  require g.ctx .ctx
  let sizePerPeer : ℤ := (size : ℤ) / peerNumber
  let sizePerQP : List ℤ := (List.range peerNumber).map
    (fun i => if i = 0 then size - sizePerPeer * (peerNumber - 1) else sizePerPeer)
  require g.buf .buf
  let context ← ibvCreate A g.openDevice .context ∅
  let channel ← openChannel A g useEvent context
  let pd ← ibvCreate A g.allocPd .pd {context}
  let mr ← ibvCreate A g.regMr .mr {pd}
  let cq ← ibvCreate A g.createCq .cq (insert context channel.toFinset)
  require g.qpArr .qpArr
  let qps ← createQps A g pd cq (List.range peerNumber)
  modifyQps g (List.range peerNumber)
  pure ⟨context, channel, pd, mr, cq, some qps, size, rxDepth, peerNumber, sizePerQP⟩

/-- A failing `ibv_destroy_*` ends `pp_close_ctx`. -/
def destroyOr (a : H) (e : CloseError) : EStateM CloseError (Device H) Unit := do
  let ret ← ibvDestroy a
  require (ret = 0) e

/-- The loop over the queue pairs; a `NULL` is passed over. -/
def closeQps : List (Option H) → EStateM CloseError (Device H) Unit
  | [] => pure ()
  | none :: rest => closeQps rest
  | some qp :: rest => do
    destroyOr qp .qp
    closeQps rest

/-- The channel is destroyed if there is one. -/
def closeChannel : Option H → EStateM CloseError (Device H) Unit
  | none => pure ()
  | some channel => destroyOr channel .channel

def closeSteps (ctx : PingpongContext H) : EStateM CloseError (Device H) Unit := do
  closeQps ((ctx.qpArr.getD []).take ctx.peerNum)
  destroyOr ctx.cq .cq
  destroyOr ctx.mr .mr
  destroyOr ctx.pd .pd
  closeChannel ctx.channel
  destroyOr ctx.context .context

/-- `pp_close_ctx`, with its return value. -/
def ppCloseCtx (ctx : PingpongContext H) (d : Device H) : ℤ × Device H :=
  match (closeSteps ctx).run d with
  | .ok _ d' => (0, d')
  | .error _ d' => (1, d')

end Source

section Creation

variable {H : Type} [DecidableEq H] {A : Allocator H} {g : Grants} {d d' d'' : Device H}
  {made : List (H × Finset H)} {deps : Finset H}

theorem bind_eq_ok {ε σ α β : Type} {x : EStateM ε σ α} {f : α → EStateM ε σ β} {s t : σ} {b : β} :
    (x >>= f) s = .ok b t ↔ ∃ a u, x s = .ok a u ∧ f a u = .ok b t := by
  cases hx : x s with
  | ok a u => simp [bind, EStateM.bind, hx]
  | error e u => simp [bind, EStateM.bind, hx]

theorem pure_eq_ok {ε σ α : Type} {a b : α} {s t : σ} :
    (pure a : EStateM ε σ α) s = .ok b t ↔ a = b ∧ s = t := by
  simp [pure, EStateM.pure]

theorem require_eq_ok {ε σ : Type} {ok : Bool} {e : ε} {u : Unit} {s t : σ} :
    require ok e s = .ok u t ↔ ok = true ∧ s = t := by
  cases ok with
  | true =>
    rw [require, if_pos rfl, pure_eq_ok, eq_self_iff_true, eq_self_iff_true]
  | false =>
    constructor
    · intro h
      cases h
    · intro h
      cases h.1

/-- `d'` is `d` with new objects, and no request to destroy one was made in between. -/
structure Since (d d' : Device H) (made : List (H × Finset H)) : Prop where
  grown : d.pool.Grown d'.pool made
  destroyed : d'.destroyed = d.destroyed
  refused : d'.refused = d.refused

omit [DecidableEq H] in
theorem since_refl (d : Device H) : Since d d [] := ⟨d.pool.grown_refl, rfl, rfl⟩

theorem Since.create {ε : Type} {ok : Bool} {e : ε} {a : H} (h : Since d d' made)
    (hdeps : deps ⊆ d'.pool.live) (hrun : ibvCreate A ok e deps d' = .ok a d'') :
    Since d d'' (made ++ [(a, deps)]) := by
  unfold ibvCreate at hrun
  split_ifs at hrun
  obtain ⟨rfl, rfl⟩ := EStateM.Result.ok.inj hrun
  exact ⟨h.grown.create (A.fresh _) hdeps, h.destroyed, h.refused⟩

omit [DecidableEq H] in
theorem Since.live (h : Since d d' made) {a : H} (ha : a ∈ made.map Prod.fst) :
    a ∈ d'.pool.live := (h.grown.live a).mpr (Or.inr ha)

theorem Since.openChannel {useEvent : Bool} {context : H} {channel : Option H}
    (h : Since d d' made) (hcontext : context ∈ d'.pool.live)
    (hrun : openChannel A g useEvent context d' = .ok channel d'') :
    Since d d'' (made ++ channel.toList.map (fun a => (a, {context}))) := by
  cases useEvent with
  | false =>
    obtain ⟨rfl, rfl⟩ := pure_eq_ok.mp hrun
    rw [Option.toList_none, List.map_nil, List.append_nil]
    exact h
  | true =>
    obtain ⟨a, u, hcreate, hpure⟩ := bind_eq_ok.mp hrun
    obtain ⟨rfl, rfl⟩ := pure_eq_ok.mp hpure
    exact h.create (Finset.singleton_subset_iff.mpr hcontext) hcreate

theorem Since.createQps {pd cq : H} {is : List ℕ} {qpArr : List (Option H)} (h : Since d d' made)
    (hdeps : {pd, cq} ⊆ d'.pool.live) (hrun : createQps A g pd cq is d' = .ok qpArr d'') :
    ∃ qps : List H, qpArr = qps.map some ∧ qps.length = is.length ∧
      Since d d'' (made ++ qps.map (fun a => (a, {pd, cq}))) := by
  induction is generalizing d' made qpArr with
  | nil =>
    obtain ⟨rfl, rfl⟩ := pure_eq_ok.mp hrun
    refine ⟨[], rfl, rfl, ?_⟩
    rw [List.map_nil, List.append_nil]
    exact h
  | cons i rest ih =>
    obtain ⟨qp, u, hcreate, hrun⟩ := bind_eq_ok.mp hrun
    obtain ⟨arr, v, hrest, hpure⟩ := bind_eq_ok.mp hrun
    obtain ⟨rfl, rfl⟩ := pure_eq_ok.mp hpure
    have hqp := h.create hdeps hcreate
    have hlive : {pd, cq} ⊆ u.pool.live := by
      intro a ha
      exact (hqp.grown.live a).mpr (((h.grown.live a).mp (hdeps ha)).imp_right fun hmem => by
        rw [List.map_append]
        exact List.mem_append_left _ hmem)
    obtain ⟨qps, rfl, hlength, hsince⟩ := ih hqp hlive hrest
    refine ⟨qp :: qps, rfl, ?_, ?_⟩
    · rw [List.length_cons, List.length_cons, hlength]
    · rw [List.append_assoc] at hsince
      exact hsince

omit [DecidableEq H] in
theorem modifyQps_eq_ok {is : List ℕ} {u : Unit} (hrun : modifyQps g is d = .ok u d') :
    d = d' := by
  induction is generalizing d with
  | nil => exact (pure_eq_ok.mp hrun).2
  | cons i rest ih =>
    obtain ⟨v, e, hrequire, hrest⟩ := bind_eq_ok.mp hrun
    obtain ⟨-, rfl⟩ := require_eq_ok.mp hrequire
    exact ih hrest

/-- The objects of a context with these queue pairs, in the order of their creation. -/
def PingpongContext.objects (ctx : PingpongContext H) (qps : List H) : List (H × Finset H) :=
  [(ctx.context, ∅)] ++ ctx.channel.toList.map (fun a => (a, {ctx.context})) ++
    [(ctx.pd, {ctx.context})] ++ [(ctx.mr, {ctx.pd})] ++
    [(ctx.cq, insert ctx.context ctx.channel.toFinset)] ++
    qps.map (fun a => (a, {ctx.pd, ctx.cq}))

/-- The calls of a successful `pp_init_ctx` that make something, and the context. -/
theorem ppInitCtx_eq_ok {size rxDepth peerNumber : ℕ} {useEvent : Bool} {ctx : PingpongContext H}
    (hrun : ppInitCtx A g size rxDepth useEvent peerNumber d = .ok ctx d') :
    ∃ context d₁ channel d₂ pd d₃ mr d₄ cq d₅ qpArr,
      ibvCreate A g.openDevice InitError.context ∅ d = .ok context d₁ ∧
      openChannel A g useEvent context d₁ = .ok channel d₂ ∧
      ibvCreate A g.allocPd InitError.pd {context} d₂ = .ok pd d₃ ∧
      ibvCreate A g.regMr InitError.mr {pd} d₃ = .ok mr d₄ ∧
      ibvCreate A g.createCq InitError.cq (insert context channel.toFinset) d₄ = .ok cq d₅ ∧
      createQps A g pd cq (List.range peerNumber) d₅ = .ok qpArr d' ∧
      ctx = ⟨context, channel, pd, mr, cq, some qpArr, size, rxDepth, peerNumber,
        (List.range peerNumber).map fun i =>
          if i = 0 then size - (size : ℤ) / peerNumber * (peerNumber - 1)
          else (size : ℤ) / peerNumber⟩ := by
  obtain ⟨_, _, hctx, rest⟩ := bind_eq_ok.mp hrun
  obtain ⟨_, _, hbuf, rest⟩ := bind_eq_ok.mp rest
  obtain ⟨context, d₁, hcontext, rest⟩ := bind_eq_ok.mp rest
  obtain ⟨channel, d₂, hchannel, rest⟩ := bind_eq_ok.mp rest
  obtain ⟨pd, d₃, hpd, rest⟩ := bind_eq_ok.mp rest
  obtain ⟨mr, d₄, hmr, rest⟩ := bind_eq_ok.mp rest
  obtain ⟨cq, d₅, hcq, rest⟩ := bind_eq_ok.mp rest
  obtain ⟨_, _, harr, rest⟩ := bind_eq_ok.mp rest
  obtain ⟨qpArr, d₆, hqps, rest⟩ := bind_eq_ok.mp rest
  obtain ⟨_, _, hmodify, hpure⟩ := bind_eq_ok.mp rest
  obtain ⟨rfl, rfl⟩ := pure_eq_ok.mp hpure
  -- the other calls leave the device as it is
  obtain rfl := modifyQps_eq_ok hmodify
  obtain ⟨-, rfl⟩ := require_eq_ok.mp harr
  obtain ⟨-, rfl⟩ := require_eq_ok.mp hbuf
  obtain ⟨-, rfl⟩ := require_eq_ok.mp hctx
  exact ⟨context, d₁, channel, d₂, pd, d₃, mr, d₄, cq, d₅, qpArr, hcontext, hchannel, hpd, hmr,
    hcq, hqps, rfl⟩

/-- What a successful `pp_init_ctx` has made. -/
theorem ppInitCtx_made {size rxDepth peerNumber : ℕ} {useEvent : Bool} {ctx : PingpongContext H}
    (hrun : ppInitCtx A g size rxDepth useEvent peerNumber d = .ok ctx d') :
    ∃ qps : List H, ctx.qpArr = some (qps.map some) ∧ qps.length = ctx.peerNum ∧
      Since d d' (ctx.objects qps) := by
  obtain ⟨context, d₁, channel, d₂, pd, d₃, mr, d₄, cq, d₅, qpArr, hcontext, hchannel, hpd, hmr,
    hcq, hqps, rfl⟩ := ppInitCtx_eq_ok hrun
  -- what every object is made from is there
  have h₁ := (since_refl _).create (Finset.empty_subset _) hcontext
  have h₂ := h₁.openChannel (h₁.live (by simp)) hchannel
  have h₃ := h₂.create (Finset.singleton_subset_iff.mpr (h₂.live (by simp))) hpd
  have h₄ := h₃.create (Finset.singleton_subset_iff.mpr (h₃.live (by simp))) hmr
  have hdeps₄ : insert context channel.toFinset ⊆ d₄.pool.live := by
    intro a ha
    rcases Finset.mem_insert.mp ha with rfl | ha
    · exact h₄.live (by simp)
    · obtain rfl : channel = some a := Option.mem_toFinset.mp ha
      exact h₄.live (by simp)
  have h₅ := h₄.create hdeps₄ hcq
  have hdeps₅ : {pd, cq} ⊆ d₅.pool.live := by
    intro a ha
    rcases Finset.mem_insert.mp ha with rfl | ha
    · exact h₅.live (by simp)
    · rw [Finset.mem_singleton.mp ha]
      exact h₅.live (by simp)
  obtain ⟨qps, hmap, hlength, h₆⟩ := h₅.createQps hdeps₅ hqps
  rw [List.length_range] at hlength
  exact ⟨qps, congrArg some hmap, hlength, h₆⟩

/-- The shares of the buffer are those that the ping-pong loop works with. -/
theorem ppInitCtx_sizePerQP {size rxDepth peerNumber : ℕ} {useEvent : Bool}
    {ctx : PingpongContext H} (qpNum : Fin peerNumber → ℕ) (hq : Function.Injective qpNum)
    (hrun : ppInitCtx A g size rxDepth useEvent peerNumber d = .ok ctx d') :
    ctx.sizePerQP = List.ofFn (Multistream.ppInitCtx size rxDepth qpNum hq).sizePerQP := by
  obtain ⟨context, d₁, channel, d₂, pd, d₃, mr, d₄, cq, d₅, qpArr, -, -, -, -, -, -, rfl⟩ :=
    ppInitCtx_eq_ok hrun
  apply List.ext_get
  · simp
  · intro i hi hi'
    simp [Multistream.ppInitCtx]

end Creation

section Success

variable {H : Type} [DecidableEq H] {ε σ α β : Type}

def Succeeds (x : EStateM ε σ α) : Prop := ∀ s, ∃ a t, x s = .ok a t

theorem succeeds_pure (a : α) : Succeeds (pure a : EStateM ε σ α) := fun s => ⟨a, s, rfl⟩

theorem succeeds_require (e : ε) : Succeeds (require true e : EStateM ε σ Unit) :=
  succeeds_pure ()

theorem succeeds_ibvCreate (A : Allocator H) (e : ε) (deps : Finset H) :
    Succeeds (ibvCreate A true e deps) := fun _ => ⟨_, _, if_pos rfl⟩

theorem Succeeds.bind {x : EStateM ε σ α} {f : α → EStateM ε σ β} (hx : Succeeds x)
    (hf : ∀ a, Succeeds (f a)) : Succeeds (x >>= f) := by
  intro s
  obtain ⟨a, t, ha⟩ := hx s
  obtain ⟨b, u, hb⟩ := hf a t
  exact ⟨b, u, bind_eq_ok.mpr ⟨a, t, ha, hb⟩⟩

def allGranted : Grants :=
  ⟨true, true, true, true, true, true, true, true, fun _ => true, fun _ => true⟩

theorem succeeds_openChannel (A : Allocator H) (useEvent : Bool) (context : H) :
    Succeeds (openChannel A allGranted useEvent context) := by
  cases useEvent with
  | false => exact succeeds_pure none
  | true => exact (succeeds_ibvCreate A _ _).bind (fun channel => succeeds_pure (some channel))

theorem succeeds_createQps (A : Allocator H) (pd cq : H) (is : List ℕ) :
    Succeeds (createQps A allGranted pd cq is) := by
  induction is with
  | nil => exact succeeds_pure []
  | cons i rest ih =>
    refine (succeeds_ibvCreate A _ _).bind (fun qp => ?_)
    exact ih.bind (fun qps => succeeds_pure (some qp :: qps))

omit [DecidableEq H] in
theorem succeeds_modifyQps (is : List ℕ) :
    Succeeds (modifyQps allGranted is : EStateM InitError (Device H) Unit) := by
  induction is with
  | nil => exact succeeds_pure ()
  | cons i rest ih => exact (succeeds_require _).bind (fun _ => ih)

/-- `pp_init_ctx` fails only where one of its calls does. -/
theorem ppInitCtx_succeeds (A : Allocator H) (size rxDepth : ℕ) (useEvent : Bool)
    (peerNumber : ℕ) (d : Device H) :
    ∃ ctx d', ppInitCtx A allGranted size rxDepth useEvent peerNumber d = .ok ctx d' := by
  have hall : Succeeds (ppInitCtx A allGranted size rxDepth useEvent peerNumber) := by
    refine (succeeds_require _).bind (fun _ => (succeeds_require _).bind (fun _ => ?_))
    refine (succeeds_ibvCreate A _ _).bind (fun context => ?_)
    refine (succeeds_openChannel A useEvent context).bind (fun channel => ?_)
    refine (succeeds_ibvCreate A _ _).bind (fun pd => ?_)
    refine (succeeds_ibvCreate A _ _).bind (fun mr => ?_)
    refine (succeeds_ibvCreate A _ _).bind (fun cq => (succeeds_require _).bind (fun _ => ?_))
    refine (succeeds_createQps A pd cq _).bind (fun qps => ?_)
    exact (succeeds_modifyQps _).bind (fun _ => succeeds_pure _)
  exact hall d

end Success

section Destruction

variable {H : Type} [DecidableEq H] {x y : EStateM CloseError (Device H) Unit} {as bs : List H}

/-- A part of `pp_close_ctx` that destroys these objects in this order, wherever they can
be destroyed in it. -/
def Clears (x : EStateM CloseError (Device H) Unit) (as : List H) : Prop :=
  ∀ (d : Device H) (r : Pool H), d.pool.destroyAll as = some r →
    x d = .ok () ⟨r, d.destroyed ++ as, d.refused⟩

theorem clears_pure : Clears (pure () : EStateM CloseError (Device H) Unit) [] := by
  intro d r hr
  obtain rfl := Option.some.inj hr
  rw [List.append_nil]
  rfl

theorem clears_destroyOr (a : H) (e : CloseError) : Clears (destroyOr a e) [a] := by
  intro d r hr
  obtain ⟨q, hq, hr⟩ := Option.bind_eq_some_iff.mp hr
  obtain rfl := Option.some.inj hr
  have hserved : ibvDestroy a d = (.ok 0 ⟨q, d.destroyed ++ [a], d.refused⟩ :
      EStateM.Result CloseError (Device H) ℤ) := by
    rw [ibvDestroy, hq]
  exact bind_eq_ok.mpr ⟨0, _, hserved, rfl⟩

theorem Clears.bind (hx : Clears x as) (hy : Clears y bs) :
    Clears (x >>= fun _ => y) (as ++ bs) := by
  intro d r hr
  rw [Pool.destroyAll_append] at hr
  obtain ⟨q, hq, hr⟩ := Option.bind_eq_some_iff.mp hr
  have hrest := hy ⟨q, d.destroyed ++ as, d.refused⟩ r hr
  rw [List.append_assoc] at hrest
  exact bind_eq_ok.mpr ⟨(), _, hx d q hq, hrest⟩

theorem clears_closeQps (qps : List H) : Clears (closeQps (qps.map some)) qps := by
  induction qps with
  | nil => exact clears_pure
  | cons qp rest ih => exact (clears_destroyOr qp .qp).bind ih

theorem clears_closeChannel (channel : Option H) :
    Clears (closeChannel channel) channel.toList := by
  cases channel with
  | none => exact clears_pure
  | some a => exact clears_destroyOr a .channel

/-- The order of `pp_close_ctx`. -/
def PingpongContext.closing (ctx : PingpongContext H) (qps : List H) : List H :=
  qps ++ ([ctx.cq] ++ ([ctx.mr] ++ ([ctx.pd] ++ (ctx.channel.toList ++ [ctx.context]))))

theorem clears_closeSteps {ctx : PingpongContext H} {qps : List H}
    (harr : ctx.qpArr = some (qps.map some)) (hlength : qps.length = ctx.peerNum) :
    Clears (closeSteps ctx) (ctx.closing qps) := by
  have htake : (ctx.qpArr.getD []).take ctx.peerNum = qps.map some := by
    rw [harr, Option.getD_some, ← hlength]
    exact List.take_of_length_le (List.length_map some).le
  rw [closeSteps, htake]
  exact (clears_closeQps qps).bind ((clears_destroyOr _ _).bind ((clears_destroyOr _ _).bind
    ((clears_destroyOr _ _).bind ((clears_closeChannel _).bind (clears_destroyOr _ _)))))

/-- It is that of the creation, backwards, but for the queue pairs among each other. -/
theorem closing_perm (ctx : PingpongContext H) (qps : List H) :
    (ctx.closing qps).Perm ((ctx.objects qps).map Prod.fst) := by
  rw [List.perm_iff_count]
  intro a
  simp only [PingpongContext.closing, PingpongContext.objects, List.map_append, List.map_map,
    List.map_cons, List.map_nil, Function.comp_def, List.map_id', List.count_append]
  omega

/-- An object is only needed by such as come before it. -/
theorem closing_pairwise {d d' : Device H} {ctx : PingpongContext H} {qps : List H}
    (h : Since d d' (ctx.objects qps)) :
    (ctx.closing qps).Pairwise (fun a b => a ∉ d'.pool.needs b) := by
  have hnodup : (ctx.closing qps).Nodup := (closing_perm ctx qps).nodup_iff.mpr h.grown.nodup
  have hqp : ∀ a ∈ qps, d'.pool.needs a = {ctx.pd, ctx.cq} := by
    intro a ha
    exact h.grown.needs (a, {ctx.pd, ctx.cq}) (by simp [PingpongContext.objects, ha])
  have hcq : d'.pool.needs ctx.cq = insert ctx.context ctx.channel.toFinset :=
    h.grown.needs (ctx.cq, _) (by simp [PingpongContext.objects])
  have hmr : d'.pool.needs ctx.mr = {ctx.pd} :=
    h.grown.needs (ctx.mr, _) (by simp [PingpongContext.objects])
  have hpd : d'.pool.needs ctx.pd = {ctx.context} :=
    h.grown.needs (ctx.pd, _) (by simp [PingpongContext.objects])
  have hchannel : ∀ a ∈ ctx.channel.toList, d'.pool.needs a = {ctx.context} := by
    intro a ha
    exact h.grown.needs (a, {ctx.context}) (by
      simp only [PingpongContext.objects, List.mem_append, List.mem_map]
      exact Or.inl (Or.inl (Or.inl (Or.inl (Or.inr ⟨a, ha, rfl⟩)))))
  have hcontext : d'.pool.needs ctx.context = ∅ :=
    h.grown.needs (ctx.context, _) (by simp [PingpongContext.objects])
  have hlater : Pool.NeedsLater d'.pool.needs (ctx.closing qps) := by
    refine .append (.append (.append (.append (.append ⟨?_, trivial⟩ ?_) ?_) ?_) ?_) ?_
    · exact hcontext.subset.trans (Finset.empty_subset _)
    · intro a ha
      rw [hchannel a ha]
      simp
    · intro a ha
      rw [List.mem_singleton.mp ha, hpd]
      simp
    · intro a ha
      rw [List.mem_singleton.mp ha, hmr]
      simp
    · intro a ha
      rw [List.mem_singleton.mp ha, hcq]
      intro b hb
      rcases Finset.mem_insert.mp hb with rfl | hb
      · simp
      · rw [Option.mem_toFinset, Option.mem_def] at hb
        simp [hb]
    · intro a ha
      rw [hqp a ha]
      simp [Finset.insert_subset_iff]
  exact hlater.pairwise hnodup

end Destruction

section Lifetime

variable {H : Type} [DecidableEq H]

/-- From a device `d`, through a context that was made on it, back again: every object
made is destroyed once, none is asked for while it is needed, and none is left. -/
structure Undone (d d' : Device H) (r : ℤ × Device H) : Prop where
  returns : r.1 = 0
  once : ∃ as : List H, r.2.destroyed = d.destroyed ++ as ∧ as.Nodup ∧
    ∀ a, a ∈ as ↔ a ∈ d'.pool.live ∧ a ∉ d.pool.live
  willing : r.2.refused = d.refused
  gone : r.2.pool.live = d.pool.live

theorem close_undoes_init {A : Allocator H} {g : Grants} {size rxDepth peerNumber : ℕ}
    {useEvent : Bool} {d d' : Device H} {ctx : PingpongContext H}
    (h : ppInitCtx A g size rxDepth useEvent peerNumber d = .ok ctx d') :
    Undone d d' (ppCloseCtx ctx d') := by
  obtain ⟨qps, harr, hlength, hsince⟩ := ppInitCtx_made h
  have hperm := closing_perm ctx qps
  obtain ⟨r, hr, hlive⟩ := hsince.grown.destroyAll hperm (closing_pairwise hsince)
  have hclose : ppCloseCtx ctx d' = (0, ⟨r, d'.destroyed ++ ctx.closing qps, d'.refused⟩) := by
    have hsteps := clears_closeSteps harr hlength d' r hr
    simp only [ppCloseCtx, EStateM.run, hsteps]
  rw [hclose]
  refine ⟨rfl, ⟨ctx.closing qps, ?_, hperm.nodup_iff.mpr hsince.grown.nodup, ?_⟩, hsince.refused,
    hlive⟩
  · show d'.destroyed ++ ctx.closing qps = d.destroyed ++ ctx.closing qps
    rw [hsince.destroyed]
  · intro a
    rw [hperm.mem_iff, hsince.grown.live]
    constructor
    · intro ha
      obtain ⟨x, hx, rfl⟩ := List.mem_map.mp ha
      exact ⟨Or.inr ha, hsince.grown.fresh x hx⟩
    · rintro ⟨hor, hnot⟩
      exact hor.resolve_left hnot

theorem exists_unused (s : Finset ℕ) : ∃ n, n ∉ s := Infinite.exists_notMem_finset s

/-- Numbers as handles: the lowest one not in use. -/
def counting : Allocator ℕ where
  pick := fun s => Nat.find (exists_unused s)
  fresh := fun s => Nat.find_spec (exists_unused s)

def noObjects : Device ℕ :=
  ⟨⟨∅, fun _ => ∅, fun _ h => absurd h (Finset.notMem_empty _)⟩, [], []⟩

theorem close_undoes_init_three :
    ∃ ctx d', ppInitCtx counting allGranted 8 500 true 3 noObjects = .ok ctx d' ∧
      Undone noObjects d' (ppCloseCtx ctx d') := by
  obtain ⟨ctx, d', h⟩ := ppInitCtx_succeeds counting 8 500 true 3 noObjects
  exact ⟨ctx, d', h, close_undoes_init h⟩

end Lifetime

end InfinibandWorkshop.ContextLifetime
