import AnalysisPrograms.ShmQueue.Attach

namespace AnalysisPrograms.ShmQueue

open Foundations RingBuffer Interleaving Execution

variable {st : Type} {N : Num} {zero : st}

def Building (N : Num) (proc : Process st) (ipc : Ipc st) : Prop :=
  match proc.stage with
  | .noSegment => ipc.shm = none ∧ ipc.sem = none
  | .created => (∃ seg, ipc.shm = some seg ∧ seg.room = N.val) ∧ ipc.sem = none
  | .writing field =>
    (∃ seg, ipc.shm = some seg ∧ seg.room = N.val ∧
      seg.head = ⟨if field = 0 then 0 else N.val, 0, 0, 0⟩ ∧ field ≤ 3) ∧ ipc.sem = none
  | .attached | .checked | .noSemaphore =>
    proc.queue.shmEnd = N.val ∧ (∃ seg, ipc.shm = some seg ∧ Stores N seg []) ∧ ipc.sem = none
  | .madeSemaphore =>
    proc.queue.shmEnd = N.val ∧ (∃ seg, ipc.shm = some seg ∧ Stores N seg []) ∧ ipc.sem ≠ none
  | _ => False

def Settled (N : Num) (seg : Segment st) (proc : Process st) : Prop :=
  match proc.stage with
  | .outside => True
  | .attached | .checked | .ready | .entered _ | .leaving => proc.queue.shmEnd = N.val
  | .derived _ => proc.queue.shmEnd = N.val ∧ proc.queue = derivePointers proc.queue seg
  | _ => False

variable {P : Type} {s t : System P st} {seg : Segment st} {queue : List st} {value : ℕ}

structure Running (N : Num) (s : System P st) (seg : Segment st) (queue : List st) (value : ℕ) :
    Prop where
  shm : s.shared.shm = some seg
  stores : Stores N seg queue
  history : s.shared.accepted = s.shared.delivered ++ queue
  sem : s.shared.sem = some value
  binary : value ≤ 1
  guarded : Guarded Process.inside s.locals (value ≠ 0)
  settled : ∀ p, Settled N seg (s.locals p)

inductive Phase (N : Num) (s : System P st) : Prop
  | idle (houtside : ∀ p, (s.locals p).stage = .outside) (hipc : s.shared = ⟨none, none, [], []⟩)
  | building (p : P) (hothers : ∀ r, r ≠ p → (s.locals r).stage = .outside)
    (hbuilding : Building N (s.locals p) s.shared) (haccepted : s.shared.accepted = [])
    (hdelivered : s.shared.delivered = [])
  | running (seg : Segment st) (queue : List st) (value : ℕ)
    (hrunning : Running N s seg queue value)

theorem phase_fresh (N : Num) (members : P → ShmObjQueue) : Phase N (fresh members : System P st) :=
  .idle (fun _ => rfl) rfl

theorem stores_nil (hroom : seg.room = N.val) (hhead : seg.head = ⟨N.val, 0, 0, 0⟩) :
    Stores N seg [] := by
  refine ⟨hroom, ?_, ?_, ?_, Nat.zero_le _, ?_, rfl⟩
  · rw [hhead]
  · rw [hhead]
    exact N.pos
  · rw [hhead]
    rfl
  · rw [hhead]
    exact (Nat.zero_mod _).symm

theorem writeField_head {field : ℕ} (hfield : field ≤ 3) :
    writeField N.val field ⟨if field = 0 then 0 else N.val, 0, 0, 0⟩ = ⟨N.val, 0, 0, 0⟩ := by
  match field, hfield with
  | 0, _ => rfl
  | 1, _ => rfl
  | 2, _ => rfl
  | 3, _ => rfl

theorem toInt_max (h : Stores N seg queue) : toInt seg.head.maxPoolSize = N.val := by
  unfold toInt
  rw [h.max, if_pos N.fits]

theorem building_step {proc proc' : Process st} {ipc ipc' : Ipc st} {e : ProcessStep st}
    (h : Building N proc ipc) (hmove : Moves N zero proc ipc e proc' ipc') :
    ipc'.accepted = ipc.accepted ∧ ipc'.delivered = ipc.delivered ∧
      (Building N proc' ipc' ∨
        proc'.stage = .ready ∧ proc'.queue.shmEnd = N.val ∧
          (∃ seg, ipc'.shm = some seg ∧ Stores N seg []) ∧ ipc'.sem = some 1) := by
  cases hmove with
  | shmgetFails | shmgetFinds | enter | derive | body | leave => exact h.elim
  | create =>
    obtain ⟨hshm, hsem⟩ := h
    exact ⟨rfl, rfl, .inl ⟨⟨_, rfl, by rw [hshm]; rfl⟩, hsem⟩⟩
  | memset hshm =>
    obtain ⟨⟨seg, hseg, hroom⟩, hsem⟩ := h
    obtain rfl := Option.some.inj (hshm.symm.trans hseg)
    exact ⟨rfl, rfl, .inl ⟨⟨_, rfl, hroom, rfl, Nat.zero_le 3⟩, hsem⟩⟩
  | write hshm hfield =>
    obtain ⟨⟨seg, hseg, hroom, hhead, hle⟩, hsem⟩ := h
    obtain rfl := Option.some.inj (hshm.symm.trans hseg)
    refine ⟨rfl, rfl, .inl ⟨⟨_, rfl, hroom, ?_, hfield⟩, hsem⟩⟩
    rw [if_neg (Nat.succ_ne_zero _)]
    exact (congrArg _ hhead).trans (writeField_head hle)
  | written hshm hfield =>
    obtain ⟨⟨seg, hseg, hroom, hhead, hle⟩, hsem⟩ := h
    obtain rfl := Option.some.inj (hshm.symm.trans hseg)
    refine ⟨rfl, rfl, .inl ⟨rfl, ⟨_, rfl, stores_nil hroom ?_⟩, hsem⟩⟩
    exact (congrArg _ hhead).trans (writeField_head hle)
  | abort hshm hmax =>
    obtain ⟨-, ⟨seg, hseg, hstores⟩, -⟩ := h
    obtain rfl := Option.some.inj (hshm.symm.trans hseg)
    exact absurd (toInt_max hstores) hmax
  | check => exact ⟨rfl, rfl, .inl h⟩
  | semgetFails => exact ⟨rfl, rfl, .inl h⟩
  | semgetFinds hsem => cases hsem.symm.trans h.2.2
  | semgetCreate => exact ⟨rfl, rfl, .inl ⟨h.1, h.2.1, Option.some_ne_none _⟩⟩
  | setval => exact ⟨rfl, rfl, .inr ⟨rfl, h.1, h.2.1, rfl⟩⟩

theorem bodyStep_spec {proc proc' : Process st} {ipc ipc' : Ipc st} {op : Op st}
    (h : Stores N seg queue) (hshm : ipc.shm = some seg)
    (hhistory : ipc.accepted = ipc.delivered ++ queue) (hend : proc.queue.shmEnd = N.val)
    (hpointers : proc.queue = derivePointers proc.queue seg)
    (hbody : bodyStep proc ipc op = some (proc', ipc')) :
    proc'.stage = .leaving ∧ proc'.queue.shmEnd = N.val ∧ ipc'.sem = ipc.sem ∧
      ∃ seg' queue', ipc'.shm = some seg' ∧ Stores N seg' queue' ∧
        ipc'.accepted = ipc'.delivered ++ queue' := by
  unfold bodyStep at hbody
  rw [hshm, Option.bind_eq_bind, Option.bind_some, hpointers] at hbody
  cases op with
  | get pSt =>
    dsimp only at hbody
    cases queue with
    | nil =>
      rw [getBody_nil h] at hbody
      cases hbody
      exact ⟨rfl, hend, rfl, seg, [], rfl, h, hhistory⟩
    | cons x rest =>
      rw [getBody_cons h hend] at hbody
      cases hbody
      refine ⟨rfl, hend, rfl, _, rest, rfl, h.pop, ?_⟩
      simpa using hhistory
  | put pSt =>
    dsimp only at hbody
    by_cases hfull : queue.length = N.val
    · rw [putBody_full h hfull] at hbody
      cases hbody
      exact ⟨rfl, hend, rfl, seg, queue, rfl, h, hhistory⟩
    · rw [putBody_push h hfull hend] at hbody
      cases hbody
      refine ⟨rfl, hend, rfl, _, queue ++ [pSt], rfl, h.push hfull pSt, ?_⟩
      simp [hhistory]

theorem Settled.of_not_inside {seg' : Segment st} {proc : Process st} (h : Settled N seg proc)
    (hinside : ¬proc.inside) : Settled N seg' proc := by
  obtain ⟨stage, q⟩ := proc
  cases stage with
  | derived op => exact absurd trivial hinside
  | outside | attached | checked | ready | entered | leaving => exact h
  | noSegment | created | writing | noSemaphore | madeSemaphore | aborted => exact h.elim

variable [DecidableEq P] {p : P}

theorem Running.replace {proc : Process st} {ipc : Ipc st} {seg' : Segment st} {queue' : List st}
    {value' : ℕ} (h : Running N s seg queue value) (hshm : ipc.shm = some seg')
    (hstores : Stores N seg' queue') (hhistory : ipc.accepted = ipc.delivered ++ queue')
    (hsem : ipc.sem = some value') (hbinary : value' ≤ 1)
    (hguarded : Guarded Process.inside (Function.update s.locals p proc) (value' ≠ 0))
    (hsame : seg' = seg ∨ (s.locals p).inside) (hsettled : Settled N seg' proc) :
    Running N ⟨Function.update s.locals p proc, ipc⟩ seg' queue' value' := by
  refine ⟨hshm, hstores, hhistory, hsem, hbinary, hguarded, ?_⟩
  apply (Function.forall_update_iff s.locals fun _ => Settled N seg').mpr
  refine ⟨hsettled, fun r hr => ?_⟩
  rcases hsame with rfl | hinside
  · exact h.settled r
  · apply (h.settled r).of_not_inside
    intro hr'
    exact hr (h.guarded.one r p hr' hinside)

theorem running_step {e : ProcessStep st} {proc : Process st} {ipc : Ipc st}
    (h : Running N s seg queue value) (hmove : Moves N zero (s.locals p) s.shared e proc ipc) :
    ∃ seg' queue' value', Running N ⟨Function.update s.locals p proc, ipc⟩ seg' queue' value' := by
  have hsettled := h.settled p
  -- a step that is not inside the guard and leaves the kernel objects alone
  have stay : ∀ proc, (proc.inside → (s.locals p).inside) → Settled N seg proc →
      Running N ⟨Function.update s.locals p proc, s.shared⟩ seg queue value := by
    intro proc hinside hproc
    exact h.replace h.shm h.stores h.history h.sem h.binary (h.guarded.keep hinside id)
      (.inl rfl) hproc
  have hshm := h.shm
  have hsem := h.sem
  have hhistory := h.history
  generalize hlocal : s.locals p = old at hmove hsettled stay
  generalize s.shared = before at hmove stay hshm hsem hhistory
  cases hmove with
  | create | memset | write | written | semgetCreate | setval => exact hsettled.elim
  | shmgetFails hnone => cases hshm.symm.trans hnone
  | shmgetFinds => exact ⟨seg, queue, value, stay _ id rfl⟩
  | abort hseg hmax =>
    obtain rfl := Option.some.inj (hseg.symm.trans hshm)
    exact absurd (toInt_max h.stores) hmax
  | check => exact ⟨seg, queue, value, stay _ id hsettled⟩
  | semgetFails hnone => cases hsem.symm.trans hnone
  | semgetFinds => exact ⟨seg, queue, value, stay _ id hsettled⟩
  | @enter q _ left op hleft =>
    obtain rfl : value = left + 1 := Option.some.inj (hsem.symm.trans hleft)
    have hzero : left = 0 := by
      have hbinary := h.binary
      omega
    refine ⟨seg, queue, left, h.replace hshm h.stores hhistory rfl (by omega) ?_
      (.inl rfl) hsettled⟩
    exact h.guarded.acquire (Nat.succ_ne_zero left) (not_not_intro hzero)
  | @derive q _ seg' op hseg =>
    obtain rfl : seg' = seg := Option.some.inj (hseg.symm.trans hshm)
    exact ⟨seg', queue, value, stay ⟨.derived op, derivePointers q seg'⟩ (fun _ => trivial)
      ⟨hsettled, rfl⟩⟩
  | body hbody =>
    obtain ⟨hend, hpointers⟩ := hsettled
    obtain ⟨hstage, hend', hsem', seg', queue', hshm', hstores, hhistory'⟩ :=
      bodyStep_spec h.stores hshm hhistory hend hpointers hbody
    have hinside : (s.locals p).inside := by
      rw [hlocal]
      exact trivial
    refine ⟨seg', queue', value, h.replace hshm' hstores hhistory' (hsem'.trans hsem) h.binary
      (h.guarded.keep (fun _ => hinside) id) (.inr hinside) ?_⟩
    unfold Settled
    rw [hstage]
    exact hend'
  | leave hleft =>
    have hinside : (s.locals p).inside := by
      rw [hlocal]
      exact trivial
    have hzero : value = 0 := by
      by_contra hne
      exact h.guarded.nobody hne p hinside
    obtain rfl := Option.some.inj (hsem.symm.trans hleft)
    refine ⟨seg, queue, value + 1, h.replace hshm h.stores hhistory rfl (by omega) ?_
      (.inl rfl) hsettled⟩
    exact h.guarded.release hinside id

omit [DecidableEq P] in
theorem moves_outside {proc proc' : Process st} {ipc ipc' : Ipc st} {e : ProcessStep st}
    (hmove : Moves N zero proc ipc e proc' ipc') (hstage : proc.stage = .outside) :
    e = .shmget ∧ (ipc.shm = none → proc'.stage = .noSegment ∧ ipc' = ipc) := by
  cases hmove with
  | shmgetFails => exact ⟨rfl, fun _ => ⟨rfl, rfl⟩⟩
  | shmgetFinds hshm => exact ⟨rfl, fun hnone => by cases hshm.symm.trans hnone⟩
  | create | memset | write | written | abort | check | semgetFails | semgetFinds |
    semgetCreate | setval | enter | derive | body | leave => cases hstage

omit [DecidableEq P] in
theorem Building.not_constructed {proc : Process st} {ipc : Ipc st} (h : Building N proc ipc) :
    proc.stage ≠ .outside ∧ ¬proc.constructed := by
  obtain ⟨stage, q⟩ := proc
  cases stage with
  | outside | ready | entered | derived | leaving | aborted => exact h.elim
  | noSegment | created | writing | attached | checked | noSemaphore | madeSemaphore =>
    constructor
    · intro hstage
      cases hstage
    · rintro (hready | hinside)
      · cases hready
      · exact hinside

omit [DecidableEq P] in
theorem not_constructed_of_outside {proc : Process st} (h : proc.stage = .outside) :
    ¬proc.constructed := by
  rintro (hready | hinside)
  · cases h.symm.trans hready
  · unfold Process.inside at hinside
    rw [h] at hinside
    exact hinside

theorem running_of_built {proc : Process st} {ipc : Ipc st}
    (hothers : ∀ r, r ≠ p → (s.locals r).stage = .outside) (hready : proc.stage = .ready)
    (hend : proc.queue.shmEnd = N.val) (hshm : ipc.shm = some seg) (hstores : Stores N seg [])
    (hsem : ipc.sem = some 1) (hhistory : ipc.accepted = ipc.delivered) :
    Running N ⟨Function.update s.locals p proc, ipc⟩ seg [] 1 := by
  refine ⟨hshm, hstores, ?_, hsem, Nat.le_refl 1, ?_, ?_⟩
  · rw [List.append_nil]
    exact hhistory
  · apply guarded_of_nobody
    apply (Function.forall_update_iff s.locals fun _ l => ¬Process.inside l).mpr
    constructor
    · unfold Process.inside
      rw [hready]
      exact id
    · intro r hr
      unfold Process.inside
      rw [hothers r hr]
      exact id
  · apply (Function.forall_update_iff s.locals fun _ => Settled N seg).mpr
    constructor
    · unfold Settled
      rw [hready]
      exact hend
    · intro r hr
      unfold Settled
      rw [hothers r hr]
      trivial

theorem phase_step {a : P × ProcessStep st} (h : Phase N s) (hok : startsInTurn s a)
    (hstep : interleave (processStep N zero) s a = some t) : Phase N t := by
  obtain ⟨p, e⟩ := a
  obtain ⟨proc, ipc, hs, rfl⟩ := interleave_eq_some hstep
  have hmove := moves_of_processStep hs
  cases h with
  | idle houtside hipc =>
    obtain ⟨-, hbuild⟩ := moves_outside hmove (houtside p)
    rw [hipc] at hbuild
    obtain ⟨hstage, rfl⟩ := hbuild rfl
    refine .building p ?_ ?_ rfl rfl
    · intro r hr
      exact (congrArg Process.stage (Function.update_of_ne hr proc s.locals)).trans (houtside r)
    · change Building N (Function.update s.locals p proc p) _
      rw [Function.update_self]
      unfold Building
      rw [hstage]
      exact ⟨rfl, rfl⟩
  | building builder hothers hbuilding haccepted hdelivered =>
    by_cases hp : p = builder
    · subst hp
      obtain ⟨hacc, hdel, hnext⟩ := building_step hbuilding hmove
      rcases hnext with hbuilding' | ⟨hready, hend, ⟨seg, hshm, hstores⟩, hsem⟩
      · refine .building p ?_ ?_ (hacc.trans haccepted) (hdel.trans hdelivered)
        · intro r hr
          exact (congrArg Process.stage (Function.update_of_ne hr proc s.locals)).trans
            (hothers r hr)
        · change Building N (Function.update s.locals p proc p) ipc
          rwa [Function.update_self]
      · have hhistory : ipc.accepted = ipc.delivered := by rw [hacc, hdel, haccepted, hdelivered]
        exact .running seg [] 1 (running_of_built hothers hready hend hshm hstores hsem hhistory)
    · -- no second constructor starts while the first one is on its way
      obtain ⟨rfl, -⟩ := moves_outside hmove (hothers p hp)
      obtain ⟨hbegun, hunfinished⟩ := hbuilding.not_constructed
      rcases hok rfl with hall | ⟨r, hr⟩
      · exact absurd (hall builder) hbegun
      · by_cases hrb : r = builder
        · subst hrb
          exact absurd hr hunfinished
        · exact absurd hr (not_constructed_of_outside (hothers r hrb))
  | running seg queue value hrunning =>
    obtain ⟨seg', queue', value', hrunning'⟩ := running_step hrunning hmove
    exact .running seg' queue' value' hrunning'

omit [DecidableEq P] in
theorem Running.nothingLost (h : Running N s seg queue value) : NothingLost s.shared := by
  have hqueued : s.shared.queued = queue := by
    unfold Ipc.queued
    rw [h.shm]
    exact (congrArg₂ (contents seg.objs · seg.head.exFirst ·) h.stores.max h.stores.size).trans
      h.stores.objs
  unfold NothingLost
  rw [hqueued, ← h.history]

omit [DecidableEq P] in
theorem Phase.safe (h : Phase N s) : Exclusive Process.inside s.locals ∧ NothingLost s.shared := by
  cases h with
  | idle houtside hipc =>
    constructor
    · intro p r hp
      exact absurd (.inr hp) (not_constructed_of_outside (houtside p))
    · rw [hipc]
      exact List.nil_subperm
  | building builder hothers hbuilding haccepted hdelivered =>
    constructor
    · intro p r hp
      by_cases hpb : p = builder
      · subst hpb
        exact absurd (.inr hp) hbuilding.not_constructed.2
      · exact absurd (.inr hp) (not_constructed_of_outside (hothers p hpb))
    · unfold NothingLost
      rw [haccepted]
      exact List.nil_subperm
  | running seg queue value hrunning => exact ⟨hrunning.guarded.one, hrunning.nothingLost⟩

theorem attaching_safe (N : Num) (zero : st) (members : P → ShmObjQueue)
    (run : List (P × ProcessStep st))
    (h : Along (interleave (processStep N zero)) startsInTurn (fresh members) run) :
    ∀ done rest t, run = done ++ rest →
      exec (interleave (processStep N zero)) (fresh members) done = some t →
        Exclusive Process.inside t.locals ∧ NothingLost t.shared := by
  rintro done rest t rfl ht
  have hphase : Phase N t :=
    inv_exec (Phase N) startsInTurn (fun _ _ _ => phase_step) (phase_fresh N members) h.of_append ht
  exact hphase.safe

def twoObjects : Num := ⟨2, by decide, by decide⟩

def construct (p : Bool) : List (Bool × ProcessStep ℕ) :=
  [(p, .shmget), (p, .shmgetCreate), (p, .memset), (p, .writeHead), (p, .writeHead),
    (p, .writeHead), (p, .writeHead), (p, .checkMax), (p, .semget), (p, .semgetCreate 0),
    (p, .setval)]

def callSteps (p : Bool) (op : Op ℕ) : List (Bool × ProcessStep ℕ) :=
  [(p, .semopDown op), (p, .derive), (p, .body), (p, .semopUp)]

def noMembers : Bool → ShmObjQueue := fun _ => ⟨0, 0, 0⟩

def attachLater : List (Bool × ProcessStep ℕ) :=
  construct false ++ callSteps false (.put 7) ++
    [(true, .shmget), (true, .checkMax), (true, .semget)] ++
    callSteps true (.get 0)

instance decidableInside : DecidablePred (Process.inside : Process st → Prop)
  | ⟨.entered _, _⟩ | ⟨.derived _, _⟩ | ⟨.leaving, _⟩ => isTrue trivial
  | ⟨.outside, _⟩ | ⟨.noSegment, _⟩ | ⟨.created, _⟩ | ⟨.writing _, _⟩ | ⟨.attached,
    _⟩ | ⟨.checked, _⟩
  | ⟨.noSemaphore, _⟩ | ⟨.madeSemaphore, _⟩ | ⟨.ready, _⟩ | ⟨.aborted, _⟩ => isFalse id

theorem attachLater_safe :
    Along (interleave (processStep twoObjects 0)) startsInTurn (fresh noMembers) attachLater ∧
      ∀ done rest t, attachLater = done ++ rest →
        exec (interleave (processStep twoObjects 0)) (fresh noMembers) done = some t →
          Exclusive Process.inside t.locals ∧ NothingLost t.shared := by
  have hturn : Along (interleave (processStep twoObjects 0)) startsInTurn (fresh noMembers)
      attachLater := by
    unfold startsInTurn Process.constructed
    decide
  exact ⟨hturn, attaching_safe twoObjects 0 noMembers attachLater hturn⟩

def lateClear : List (Bool × ProcessStep ℕ) :=
  [(true, .shmget)] ++ construct false ++ callSteps false (.put 7) ++
    [(true, .shmgetCreate), (true, .memset)]

def lateSetval : List (Bool × ProcessStep ℕ) :=
  (construct true).take 9 ++ [(false, .shmget), (false, .checkMax), (false, .semget),
    (false, .semgetCreate 0), (false, .setval), (false, .semopDown (.put 7)),
    (true, .semgetCreate 0), (true, .setval), (true, .semopDown (.get 0))]

theorem racing_constructors_break_queue :
    (∃ t, exec (interleave (processStep twoObjects 0)) (fresh noMembers) lateClear = some t ∧
      ¬NothingLost t.shared) ∧
    ∃ t, exec (interleave (processStep twoObjects 0)) (fresh noMembers) lateSetval = some t ∧
      ¬Exclusive Process.inside t.locals := by
  refine ⟨⟨_, rfl, fun h => ?_⟩, _, rfl, fun h => ?_⟩
  · cases h.length_le
  · cases h false true trivial trivial

end AnalysisPrograms.ShmQueue
