import Shachain2pc.Daemon.JobPairing

/-!
# Which openings are paired

Bob's map holds exactly the main streams of the half-open openings, so a sibling, which is
requested after its main stream was accepted, finds its own main stream. A main stream is
refused exactly when a half-open opening has its job id.
-/

namespace Shachain2pc

open Runs (run run_cons Along guard_eq_some)

namespace GrpcJobs

variable {Stream : Type} {jobs : GrpcJobs Stream} {descriptor : GrpcJobDescriptor} {stream : Stream}

/-- The first stream of a job id is kept. -/
theorem register_first (h : jobs descriptor.jobId = none) :
    jobs.register descriptor 1 stream =
      (Function.update jobs descriptor.jobId (some ⟨descriptor, some stream, none⟩), .ok none) := by
  simp [register, h, put, PendingGrpcJob.ready?]

/-- A second main stream is refused, and changes nothing. -/
theorem register_second {job : PendingGrpcJob Stream} {main : Stream}
    (h : jobs descriptor.jobId = some job) (hmain : job.main = some main) :
    ∃ error, jobs.register descriptor 1 stream = (jobs, .error error) := by
  have hsame : Function.update jobs descriptor.jobId (some job) = jobs := by
    rw [← h, Function.update_eq_self]
  by_cases hdescriptor : job.descriptor = descriptor
  · exact ⟨_, by simp [register, h, hsame, hdescriptor, hmain]; rfl⟩
  · exact ⟨_, by simp [register, h, hsame, hdescriptor]; rfl⟩

/-- The sibling of a main stream that is kept completes the session. -/
theorem register_sibling {main : Stream}
    (h : jobs descriptor.jobId = some ⟨descriptor, some main, none⟩) :
    jobs.register descriptor 2 stream =
      (Function.update jobs descriptor.jobId none, .ok (some ⟨descriptor, main, stream⟩)) := by
  simp [register, h, put, PendingGrpcJob.ready?]

end GrpcJobs

namespace JobPairing

variable {s t : JobPairing}

/-- What Bob keeps for a half-open opening. -/
def keeps (k : ℕ) (opening : JobOpening) : PendingGrpcJob ℕ := ⟨opening.descriptor, some k, none⟩

/-- A sibling is requested only after its main stream was accepted. -/
def Ordered (opening : JobOpening) : Prop := opening.sibling ≠ .unsent → opening.main = .accepted

/-- Bob keeps exactly the main streams of the half-open openings, and the sessions he started have
both streams from one opening. -/
structure Paired (s : JobPairing) : Prop where
  halfOpen :
      ∀ (k : ℕ) (opening : JobOpening), s.openings[k]? = some opening → opening.halfOpen = true →
    s.grpcJobs opening.descriptor.jobId = some (keeps k opening)
  kept : ∀ jobId job, s.grpcJobs jobId = some job → ∃ (k : ℕ) (opening : JobOpening),
    s.openings[k]? = some opening ∧ opening.halfOpen = true ∧ opening.descriptor.jobId = jobId ∧
      job = keeps k opening
  ordered : ∀ (k : ℕ) (opening : JobOpening), s.openings[k]? = some opening → Ordered opening
  sessions : ∀ job ∈ s.sessions, job.main = job.sibling ∧
    ∃ opening, s.openings[job.main]? = some opening ∧ opening.descriptor = job.descriptor

/-- Bob refused a stream of the opening. -/
def Refused (opening : JobOpening) : Prop :=
  ∃ error, opening.main = .refused error ∨ opening.sibling = .refused error

/-- Bob refused no stream. -/
def Clean (s : JobPairing) : Prop :=
  ∀ (k : ℕ) (opening : JobOpening), s.openings[k]? = some opening → ¬Refused opening

/-- The openings after one changed. -/
theorem getElem?_modify_iff {openings : List JobOpening} {k k' : ℕ} {f : JobOpening → JobOpening}
    {opening' : JobOpening} : (openings.modify k f)[k']? = some opening' ↔
      ∃ opening, openings[k']? = some opening ∧ opening' = if k =
        k' then f opening else opening := by
  rw [List.getElem?_modify]
  cases openings[k']? <;> simp [eq_comm]

/-- An opening changes in what Bob does not see. -/
theorem Paired.modify (h : s.Paired) (k : ℕ) (f : JobOpening → JobOpening)
    (hf : ∀ opening, s.openings[k]? = some opening → (f opening).descriptor = opening.descriptor ∧
      (f opening).halfOpen = opening.halfOpen ∧ Ordered (f opening)) : (s.modify k f).Paired := by
  have hchanged {k' : ℕ} {opening : JobOpening} (hopening : s.openings[k']? = some opening) :
      (if k = k' then f opening else opening).descriptor = opening.descriptor ∧
        (if k = k' then f opening else opening).halfOpen = opening.halfOpen ∧
        Ordered (if k = k' then f opening else opening) := by
    split
    · rename_i hk
      exact hf opening (hk ▸ hopening)
    · exact ⟨rfl, rfl, h.ordered k' opening hopening⟩
  have hafter {k' : ℕ} {opening : JobOpening} (hopening : s.openings[k']? = some opening) :
      (s.modify k f).openings[k']? = some (if k = k' then f opening else opening) :=
    getElem?_modify_iff.mpr ⟨opening, hopening, rfl⟩
  refine ⟨fun k' opening' hopening' hhalf => ?_, fun jobId job hjob => ?_,
    fun k' opening' hopening' => ?_,
    fun job hjob => ?_⟩
  · obtain ⟨opening, hopening, rfl⟩ := getElem?_modify_iff.mp hopening'
    obtain ⟨hdescriptor, hsame, -⟩ := hchanged hopening
    rw [hsame] at hhalf
    rw [keeps, hdescriptor]
    exact h.halfOpen k' opening hopening hhalf
  · obtain ⟨k', opening, hopening, hhalf, hid, rfl⟩ := h.kept jobId job hjob
    obtain ⟨hdescriptor, hsame, -⟩ := hchanged hopening
    refine ⟨k', _, hafter hopening, hsame.trans hhalf, ?_, ?_⟩
    · rw [hdescriptor, hid]
    · rw [keeps, keeps, hdescriptor]
  · obtain ⟨opening, hopening, rfl⟩ := getElem?_modify_iff.mp hopening'
    exact (hchanged hopening).2.2
  · obtain ⟨hsame, opening, hopening, hdescriptor⟩ := h.sessions job hjob
    exact ⟨hsame, _, hafter hopening, (hchanged hopening).1.trans hdescriptor⟩

/-- An opening changes, and is refused when it was. -/
theorem clean_modify (k : ℕ) (f : JobOpening → JobOpening)
    (hf : ∀ opening, s.openings[k]? = some opening → (Refused (f opening) ↔ Refused opening)) :
    (s.modify k f).Clean ↔ s.Clean := by
  have hchanged {k' : ℕ} {opening : JobOpening} (hopening : s.openings[k']? = some opening) :
      Refused (if k = k' then f opening else opening) ↔ Refused opening := by
    split
    · rename_i hk
      exact hf opening (hk ▸ hopening)
    · exact Iff.rfl
  constructor
  · intro hclean k' opening hopening hrefused
    exact hclean k' _ (getElem?_modify_iff.mpr ⟨opening, hopening, rfl⟩)
      ((hchanged hopening).mpr hrefused)
  · intro hclean k' opening' hopening' hrefused
    obtain ⟨opening, hopening, rfl⟩ := getElem?_modify_iff.mp hopening'
    exact hclean k' opening hopening ((hchanged hopening).mp hrefused)

/-- An opening whose main stream was not accepted has no sibling. -/
theorem Ordered.unsent {opening : JobOpening} (h : Ordered opening)
    (hmain : opening.main ≠ .accepted) :
    opening.sibling = .unsent := not_imp_comm.mp h hmain

/-- A main stream that reaches Bob is accepted when no half-open opening has its job id. -/
theorem Paired.deliverMain (h : s.Paired) {k : ℕ} {opening : JobOpening}
    (hopening : s.openings[k]? = some opening) (hmain : opening.main = .inFlight) :
    (s.register k 1 opening.descriptor fun request o => { o with main := request }).Paired ∧
      ((s.register k 1 opening.descriptor fun request o => { o with main := request }).Clean ↔
        s.Clean ∧ ∀ other ∈ s.openings, other.halfOpen = true →
          other.descriptor.jobId ≠ opening.descriptor.jobId) := by
  have hsibling : opening.sibling = .unsent := by
    refine (h.ordered k opening hopening).unsent ?_
    rw [hmain]
    simp
  have hopenings {f : JobOpening → JobOpening} :
      (s.openings.modify k f)[k]? = some (f opening) :=
        getElem?_modify_iff.mpr ⟨opening, hopening, by simp⟩
  cases hkept : s.grpcJobs opening.descriptor.jobId with
  | none =>
    have hunclaimed : ∀ other ∈ s.openings, other.halfOpen = true →
        other.descriptor.jobId ≠ opening.descriptor.jobId := by
      intro other hother hhalf hid
      obtain ⟨k', hk'⟩ := List.mem_iff_getElem?.mp hother
      rw [← hid, h.halfOpen k' other hk' hhalf] at hkept
      cases hkept
    have hregister :
        (s.register k 1 opening.descriptor fun request o => { o with main := request }) =
        { s.modify k fun o => { o with main := .accepted } with
          grpcJobs := Function.update s.grpcJobs opening.descriptor.jobId
            (some ⟨opening.descriptor, some k, none⟩) } := by
      simp [register, GrpcJobs.register_first hkept, answered, JobPairing.modify]
    rw [hregister]
    refine ⟨⟨fun k' opening' hopening' hhalf => ?_, fun jobId job hjob => ?_,
      fun k' opening' hopening' => ?_, fun job hjob => ?_⟩, ?_⟩
    · obtain ⟨before, hbefore, rfl⟩ := getElem?_modify_iff.mp hopening'
      by_cases hk : k = k'
      · subst hk
        obtain rfl := Option.some.inj (hopening.symm.trans hbefore)
        simp [keeps]
      · simp only [hk, ↓reduceIte] at hhalf ⊢
        have hne := hunclaimed before (List.mem_of_getElem? hbefore) hhalf
        rw [Function.update_of_ne hne]
        exact h.halfOpen k' before hbefore hhalf
    · dsimp only at hjob
      by_cases hid : jobId = opening.descriptor.jobId
      · subst hid
        rw [Function.update_self] at hjob
        exact ⟨k, _, hopenings, by simp [JobOpening.halfOpen, hsibling], rfl,
          (Option.some.inj hjob).symm⟩
      · rw [Function.update_of_ne hid] at hjob
        obtain ⟨k', before, hbefore, hhalf, hid', rfl⟩ := h.kept jobId job hjob
        have hk : k ≠ k' := by
          rintro rfl
          obtain rfl := Option.some.inj (hopening.symm.trans hbefore)
          exact hid hid'.symm
        exact ⟨k', before, getElem?_modify_iff.mpr ⟨before, hbefore, by simp [hk]⟩,
          hhalf, hid', rfl⟩
    · obtain ⟨before, hbefore, rfl⟩ := getElem?_modify_iff.mp hopening'
      split
      · exact fun _ => rfl
      · exact h.ordered k' before hbefore
    · obtain ⟨hsame, before, hbefore, hdescriptor⟩ := h.sessions job hjob
      refine ⟨hsame, _, getElem?_modify_iff.mpr ⟨before, hbefore, rfl⟩, ?_⟩
      split <;> exact hdescriptor
    · refine Iff.trans ?_ (and_iff_left hunclaimed).symm
      refine clean_modify (s := s) k _ fun before hbefore => ?_
      obtain rfl := Option.some.inj (hopening.symm.trans hbefore)
      simp [Refused, hmain]
  | some job =>
    obtain ⟨k', other, hother, hhalf, hid, rfl⟩ := h.kept _ _ hkept
    obtain ⟨error, hrefused⟩ : ∃ error, s.grpcJobs.register opening.descriptor 1 k =
        (s.grpcJobs, .error error) := GrpcJobs.register_second hkept rfl
    have hregister :
        (s.register k 1 opening.descriptor fun request o => { o with main := request }) =
        s.modify k fun o => { o with main := .refused error } := by
      simp [register, hrefused, answered, JobPairing.modify]
    rw [hregister]
    constructor
    · refine h.modify k _ fun before hbefore => ?_
      obtain rfl := Option.some.inj (hopening.symm.trans hbefore)
      refine ⟨rfl, by simp [JobOpening.halfOpen, hmain], fun hsent => ?_⟩
      exact absurd hsibling hsent
    · constructor
      · intro hclean
        exact absurd ⟨error, .inl rfl⟩ (hclean k _ hopenings)
      · rintro ⟨-, hunclaimed⟩
        exact absurd hid (hunclaimed other (List.mem_of_getElem? hother) hhalf)

/-- A sibling that reaches Bob completes the session of its main stream. -/
theorem Paired.deliverSibling (h : s.Paired) {k : ℕ} {opening : JobOpening}
    (hopening : s.openings[k]? = some opening) (hsibling : opening.sibling = .inFlight) :
    (s.register k 2 opening.descriptor fun request o => { o with sibling := request }).Paired ∧
      ((s.register k 2 opening.descriptor fun request o => { o with sibling := request }).Clean ↔
        s.Clean) := by
  have hmain : opening.main = .accepted := h.ordered k opening hopening (by rw [hsibling]; simp)
  have hhalf : opening.halfOpen = true := by simp [JobOpening.halfOpen, hmain, hsibling]
  have hkept := h.halfOpen k opening hopening hhalf
  have hregister :
      (s.register k 2 opening.descriptor fun request o => { o with sibling := request }) =
      { s.modify k fun o => { o with sibling := .accepted } with
        grpcJobs := Function.update s.grpcJobs opening.descriptor.jobId none
        sessions := s.sessions ++ [⟨opening.descriptor, k, k⟩] } := by
    simp [register, GrpcJobs.register_sibling hkept, answered, JobPairing.modify]
  rw [hregister]
  refine ⟨⟨fun k' opening' hopening' hhalf' => ?_, fun jobId job hjob => ?_,
    fun k' opening' hopening' => ?_, fun job hjob => ?_⟩, ?_⟩
  · obtain ⟨before, hbefore, rfl⟩ := getElem?_modify_iff.mp hopening'
    by_cases hk : k = k'
    · simp [hk, JobOpening.halfOpen] at hhalf'
    · simp only [hk, ↓reduceIte] at hhalf' ⊢
      have hother := h.halfOpen k' before hbefore hhalf'
      rw [Function.update_of_ne]
      · exact hother
      · intro hid
        rw [hid, hkept] at hother
        exact hk (Option.some.inj (PendingGrpcJob.mk.inj (Option.some.inj hother)).2.1)
  · dsimp only at hjob
    by_cases hid : jobId = opening.descriptor.jobId
    · rw [hid, Function.update_self] at hjob
      cases hjob
    · rw [Function.update_of_ne hid] at hjob
      obtain ⟨k', before, hbefore, hhalf', hid', rfl⟩ := h.kept jobId job hjob
      have hk : k ≠ k' := by
        rintro rfl
        obtain rfl := Option.some.inj (hopening.symm.trans hbefore)
        exact hid hid'.symm
      exact ⟨k', before, getElem?_modify_iff.mpr ⟨before, hbefore, by simp [hk]⟩, hhalf', hid', rfl⟩
  · obtain ⟨before, hbefore, rfl⟩ := getElem?_modify_iff.mp hopening'
    split
    · rename_i hk
      subst hk
      obtain rfl := Option.some.inj (hopening.symm.trans hbefore)
      exact fun _ => hmain
    · exact h.ordered k' before hbefore
  · rcases List.mem_append.mp hjob with hold | hnew
    · obtain ⟨hsame, before, hbefore, hdescriptor⟩ := h.sessions job hold
      refine ⟨hsame, _, getElem?_modify_iff.mpr ⟨before, hbefore, rfl⟩, ?_⟩
      split <;> exact hdescriptor
    · obtain rfl := List.mem_singleton.mp hnew
      refine ⟨rfl, _, getElem?_modify_iff.mpr ⟨opening, hopening, rfl⟩, ?_⟩
      split <;> rfl
  · refine clean_modify (s := s) k _ fun before hbefore => ?_
    obtain rfl := Option.some.inj (hopening.symm.trans hbefore)
    simp [Refused, hsibling]

/-- A new opening, of which Bob knows nothing. -/
theorem Paired.openMain (h : s.Paired) (inner : Inner) (descriptor : GrpcJobDescriptor) :
    Paired { s with
      inner := inner, openings := s.openings ++ [⟨descriptor, true, .inFlight, .unsent⟩] } ∧
      (Clean { s with
          inner := inner
          openings := s.openings ++ [⟨descriptor, true, .inFlight, .unsent⟩] } ↔
              s.Clean ∧ True) := by
  have hold {k : ℕ} {opening : JobOpening} (hopening : s.openings[k]? = some opening) :
      (s.openings ++ [⟨descriptor, true, .inFlight, .unsent⟩])[k]? = some opening :=
    (List.getElem?_append_left (List.getElem?_eq_some_iff.mp hopening).1).trans hopening
  have hcases {k : ℕ} {opening : JobOpening}
      (hopening : (s.openings ++ [⟨descriptor, true, .inFlight, .unsent⟩])[k]? = some opening) :
      s.openings[k]? = some opening ∨ opening = ⟨descriptor, true, .inFlight, .unsent⟩ := by
    by_cases hk : k < s.openings.length
    · rw [List.getElem?_append_left hk] at hopening
      exact .inl hopening
    · rw [List.getElem?_append_right (Nat.le_of_not_lt hk)] at hopening
      exact .inr (List.mem_singleton.mp (List.mem_of_getElem? hopening))
  refine ⟨⟨fun k opening hopening hhalf => ?_, fun jobId job hjob => ?_,
    fun k opening hopening => ?_,
    fun job hjob => ?_⟩, ?_⟩
  · rcases hcases hopening with hopening | rfl
    · exact h.halfOpen k opening hopening hhalf
    · simp [JobOpening.halfOpen] at hhalf
  · obtain ⟨k, opening, hopening, hkept⟩ := h.kept jobId job hjob
    exact ⟨k, opening, hold hopening, hkept⟩
  · rcases hcases hopening with hopening | rfl
    · exact h.ordered k opening hopening
    · exact fun hsent => absurd rfl hsent
  · obtain ⟨hsame, opening, hopening, hdescriptor⟩ := h.sessions job hjob
    exact ⟨hsame, opening, hold hopening, hdescriptor⟩
  · refine Iff.trans ?_ (and_iff_left trivial).symm
    constructor
    · exact fun hclean k opening hopening => hclean k opening (hold hopening)
    · intro hclean k opening hopening
      rcases hcases hopening with hopening | rfl
      · exact hclean k opening hopening
      · simp [Refused]

/-- Alice restarts, and her openings stop. -/
theorem Paired.restart (h : s.Paired) (inner : Inner) :
    Paired { s with
      inner := inner, openings := s.openings.map fun o => { o with active := false } } ∧
      (Clean { s with
        inner := inner, openings := s.openings.map fun o => { o with active := false } } ↔
        s.Clean ∧ True) := by
  have hafter {k : ℕ} {opening' : JobOpening} :
      (s.openings.map fun o => { o with active := false })[k]? = some opening' ↔
        ∃ opening, s.openings[k]? = some opening ∧ { opening with active := false } = opening' := by
    rw [List.getElem?_map, Option.map_eq_some_iff]
  refine ⟨⟨fun k opening' hopening' hhalf => ?_, fun jobId job hjob => ?_,
    fun k opening' hopening' => ?_,
    fun job hjob => ?_⟩, ?_⟩
  · obtain ⟨opening, hopening, rfl⟩ := hafter.mp hopening'
    exact h.halfOpen k opening hopening hhalf
  · obtain ⟨k, opening, hopening, hkept⟩ := h.kept jobId job hjob
    exact ⟨k, { opening with active := false }, hafter.mpr ⟨opening, hopening, rfl⟩, hkept⟩
  · obtain ⟨opening, hopening, rfl⟩ := hafter.mp hopening'
    exact h.ordered k opening hopening
  · obtain ⟨hsame, opening, hopening, hdescriptor⟩ := h.sessions job hjob
    exact ⟨hsame, { opening with active := false },
      hafter.mpr ⟨opening, hopening, rfl⟩, hdescriptor⟩
  · refine Iff.trans ?_ (and_iff_left trivial).symm
    constructor
    · intro hclean k opening hopening
      exact hclean k { opening with active := false } (hafter.mpr ⟨opening, hopening, rfl⟩)
    · intro hclean k opening' hopening'
      obtain ⟨opening, hopening, rfl⟩ := hafter.mp hopening'
      exact hclean k opening hopening

/-- A step keeps what Bob has in line with the openings, and refuses a stream only when the job id
of the opening is claimed. -/
theorem Paired.step {sha256 : List UInt8 → Value32} {label : PairingLabel} (h : s.Paired)
    (hstep : s.step sha256 label = some t) :
    t.Paired ∧ (t.Clean ↔ s.Clean ∧ s.Unclaimed label) := by
  cases label with
  | openMain c peer =>
    simp only [JobPairing.step] at hstep
    split at hstep
    · obtain rfl := Option.some.inj hstep
      exact h.openMain _ _
    · obtain rfl := Option.some.inj hstep
      exact ⟨h, (and_iff_left trivial).symm⟩
  | openSibling k =>
    obtain ⟨opening, hopening, hstep⟩ := Option.bind_eq_some_iff.mp hstep
    obtain ⟨⟨-, hmain, hsibling⟩, rfl⟩ := guard_eq_some.mp hstep
    refine ⟨h.modify k _ fun before hbefore => ?_, (clean_modify k _ fun before hbefore => ?_).trans
      (and_iff_left trivial).symm⟩
    · obtain rfl := Option.some.inj (hopening.symm.trans hbefore)
      exact ⟨rfl, by simp [JobOpening.halfOpen, hmain, hsibling], fun _ => hmain⟩
    · obtain rfl := Option.some.inj (hopening.symm.trans hbefore)
      simp [Refused, hsibling]
  | deliverMain k =>
    obtain ⟨opening, hopening, hstep⟩ := Option.bind_eq_some_iff.mp hstep
    obtain ⟨hmain, rfl⟩ := guard_eq_some.mp hstep
    obtain ⟨hpaired, hclean⟩ := h.deliverMain hopening hmain
    refine ⟨hpaired, hclean.trans (and_congr_right fun _ => ?_)⟩
    rw [Unclaimed, hopening]
    simp
  | deliverSibling k =>
    obtain ⟨opening, hopening, hstep⟩ := Option.bind_eq_some_iff.mp hstep
    obtain ⟨hsibling, rfl⟩ := guard_eq_some.mp hstep
    obtain ⟨hpaired, hclean⟩ := h.deliverSibling hopening hsibling
    exact ⟨hpaired, hclean.trans (and_iff_left trivial).symm⟩
  | loseMain k =>
    obtain ⟨opening, hopening, hstep⟩ := Option.bind_eq_some_iff.mp hstep
    obtain ⟨hmain, rfl⟩ := guard_eq_some.mp hstep
    refine ⟨h.modify k _ fun before hbefore => ?_, (clean_modify k _ fun before hbefore => ?_).trans
      (and_iff_left trivial).symm⟩
    · obtain rfl := Option.some.inj (hopening.symm.trans hbefore)
      refine ⟨rfl, by simp [JobOpening.halfOpen, hmain], fun hsent => ?_⟩
      have haccepted := h.ordered k _ hopening hsent
      rw [hmain] at haccepted
      cases haccepted
    · obtain rfl := Option.some.inj (hopening.symm.trans hbefore)
      simp [Refused, hmain]
  | loseSibling k =>
    obtain ⟨opening, hopening, hstep⟩ := Option.bind_eq_some_iff.mp hstep
    obtain ⟨hsibling, rfl⟩ := guard_eq_some.mp hstep
    refine ⟨h.modify k _ fun before hbefore => ?_, (clean_modify k _ fun before hbefore => ?_).trans
      (and_iff_left trivial).symm⟩
    · obtain rfl := Option.some.inj (hopening.symm.trans hbefore)
      have hmain : opening.main = .accepted := h.ordered k opening hopening (by rw [hsibling]; simp)
      exact ⟨rfl, by simp [JobOpening.halfOpen, hsibling], fun _ => hmain⟩
    · obtain rfl := Option.some.inj (hopening.symm.trans hbefore)
      simp [Refused, hsibling]
  | stop k =>
    obtain rfl := Option.some.inj hstep
    refine ⟨h.modify k _ fun before hbefore => ⟨rfl, rfl, h.ordered k before hbefore⟩, ?_⟩
    refine Iff.trans (clean_modify k _ fun before _ => ?_) (and_iff_left trivial).symm
    exact Iff.rfl
  | restart inner =>
    obtain rfl := Option.some.inj hstep
    exact h.restart _
  | memory inner =>
    obtain rfl := Option.some.inj hstep
    exact ⟨⟨h.halfOpen, h.kept, h.ordered, h.sessions⟩, (and_iff_left trivial).symm⟩

/-- A run keeps what Bob has in line with the openings, and refuses a stream only when the job id of
the opening is claimed. -/
theorem Paired.run {sha256 : List UInt8 → Value32} {labels : List PairingLabel} (h : s.Paired)
    (hrun : Runs.run (JobPairing.step sha256) s labels = some t) :
    t.Paired ∧ (t.Clean ↔ s.Clean ∧ Along (JobPairing.step sha256) Unclaimed s labels) := by
  induction labels generalizing s with
  | nil =>
    obtain rfl := Option.some.inj hrun
    exact ⟨h, (and_iff_left trivial).symm⟩
  | cons label rest ih =>
    obtain ⟨mid, hmid, hrest⟩ := run_cons.mp hrun
    obtain ⟨hpaired, hstep⟩ := h.step hmid
    obtain ⟨hend, hclean⟩ := ih hpaired hrest
    refine ⟨hend, hclean.trans ?_⟩
    rw [hstep, Along, and_assoc]
    refine and_congr_right fun _ => and_congr_right fun _ =>
      ⟨fun halong t' ht' => ?_, fun halong => ?_⟩
    · obtain rfl := Option.some.inj (hmid.symm.trans ht')
      exact halong
    · exact halong mid hmid

/-- Whether an opening finds its job id unclaimed is decided. -/
instance Unclaimed.decidable (s : JobPairing) : ∀ label, Decidable (s.Unclaimed label)
  | .deliverMain k => inferInstanceAs (Decidable (∀ opening ∈ s.openings[k]?, ∀ other ∈ s.openings,
      other.halfOpen = true → other.descriptor.jobId ≠ opening.descriptor.jobId))
  | .openMain _ _ | .openSibling _ | .deliverSibling _ | .loseMain _ | .loseSibling _ | .stop _
  | .restart _ | .memory _ => isTrue trivial

/-- Before any opening Bob has nothing. -/
theorem Paired.start (inner : Inner) : (JobPairing.start inner).Paired :=
  ⟨by simp [JobPairing.start], by simp [JobPairing.start], by simp [JobPairing.start],
    by simp [JobPairing.start]⟩

end JobPairing

/-- Every session that Bob starts has both streams from one opening, and no opening is refused
exactly when none reaches Bob under the job id of a half-open one. -/
theorem jobStreams_paired {sha256 : List UInt8 → Value32} {inner : Inner}
    {labels : List PairingLabel} {t : JobPairing}
    (hrun : run (JobPairing.step sha256) (.start inner) labels = some t) :
    (∀ job ∈ t.sessions, job.main = job.sibling ∧
      ∃ opening, t.openings[job.main]? = some opening ∧ opening.descriptor = job.descriptor) ∧
    ((∀ opening ∈ t.openings, ∀ error,
        opening.main ≠ .refused error ∧ opening.sibling ≠ .refused error) ↔
      Along (JobPairing.step sha256) JobPairing.Unclaimed (.start inner) labels) := by
  obtain ⟨hpaired, hclean⟩ := (JobPairing.Paired.start inner).run hrun
  have hstart : (JobPairing.start inner).Clean := by simp [JobPairing.Clean, JobPairing.start]
  refine ⟨hpaired.sessions, Iff.trans ?_ (hclean.trans (and_iff_right hstart))⟩
  constructor
  · rintro hrefused k opening hopening ⟨error, hmain | hsibling⟩
    · exact (hrefused opening (List.mem_of_getElem? hopening) error).1 hmain
    · exact (hrefused opening (List.mem_of_getElem? hopening) error).2 hsibling
  · intro hrefused opening hopening error
    obtain ⟨k, hk⟩ := List.mem_iff_getElem?.mp hopening
    exact ⟨fun hmain => hrefused k opening hk ⟨error, .inl hmain⟩,
      fun hsibling => hrefused k opening hk ⟨error, .inr hsibling⟩⟩

/-- Alice's memory, with a channel that is enabled. -/
def pairingDaemon : Inner :=
  (enableChannel
    { cfg := ⟨.alice, none, 1, 4⟩
      masterSecret := List.replicate 32 0
      db := { channels := ∅ }
      activeJobs := ∅
      nextJobId := 0 } ⟨7, 4, 40, 1000⟩).1

/-- What Bob says of the channel. -/
def pairingPeer : PeerFrontierConfig := ⟨true, 4, 1, 1, 40, 1000⟩

/-- An opening stops once its main stream was accepted, and a later one opens both streams. -/
def pairedLabels : List PairingLabel :=
  [.openMain 7 pairingPeer, .deliverMain 0, .stop 0, .openMain 7 pairingPeer, .deliverMain 1,
    .openSibling 1, .deliverSibling 1]

/-- The later opening of one process has another job id, and is accepted. -/
theorem jobStreams_paired_stopped :
    ∃ t, run (JobPairing.step Value32.ofList) (.start pairingDaemon) pairedLabels = some t ∧
      ∀ opening ∈ t.openings, ∀ error,
        opening.main ≠ .refused error ∧ opening.sibling ≠ .refused error := by
  have hrun :
      (run (JobPairing.step Value32.ofList) (.start pairingDaemon) pairedLabels).isSome = true := by
    decide +kernel
  have hunclaimed :
      Along (JobPairing.step Value32.ofList) JobPairing.Unclaimed (.start pairingDaemon)
      pairedLabels := by
    decide +kernel
  obtain ⟨t, ht⟩ := Option.isSome_iff_exists.mp hrun
  exact ⟨t, ht, (jobStreams_paired ht).2.mpr hunclaimed⟩

/-- Alice restarts once the main stream of an opening was accepted, and opens a session again. -/
def restartedLabels : List PairingLabel :=
  [.openMain 7 pairingPeer, .deliverMain 0, .restart pairingDaemon, .openMain 7 pairingPeer,
    .deliverMain 1]

/-- After a restart an opening has the job id of the half-open one, and Bob refuses it. -/
theorem jobStreams_claimed :
    ∃ t, run (JobPairing.step Value32.ofList) (.start pairingDaemon) restartedLabels = some t ∧
      ∃ opening ∈ t.openings,
        opening.main = .refused (.tonicStatus .alreadyExists "duplicate JobStream channel") := by
  have hrun :
      (run (JobPairing.step Value32.ofList) (.start pairingDaemon) restartedLabels).any (fun t =>
      t.openings.any fun opening => opening.main =
        .refused (.tonicStatus .alreadyExists "duplicate JobStream channel")) = true := by
    decide +kernel
  simpa only [Option.any_eq_true, List.any_eq_true, decide_eq_true_eq] using hrun

end Shachain2pc
