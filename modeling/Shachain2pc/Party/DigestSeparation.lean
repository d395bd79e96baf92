import Shachain2pc.Lib.Rust
import Shachain2pc.Party.Standalone
import Mathlib.Data.Set.Function
import Mathlib.Data.Set.Insert

/-!
# What agreeing digests say about two runs

The digests carry no tag for the mode. The bytes hashed for a run are determined by a list
of indices and an optional chunk size; a chunked run has those of the tree mode on one
index, and a cached run has those of a batch whose third index is made of its parameters.
Every other pair of runs with one digest is one run.
-/

namespace Shachain2pc

open Rust

/-- What every accepted run satisfies. -/
structure StandaloneRun.WellFormed (run : StandaloneRun) : Prop where
  range : ∃ lo hi, lo ≤ hi ∧ hi ≤ maxIndex ∧ run.indices = rangeIndices lo hi
  chunked : ∀ blocksPerChunk, run.mode = .chunked blocksPerChunk →
    blocksPerChunk < 2 ^ 31 ∧ ∃ index, run.indices = [index]
  tree : ∀ trunkChunkBlocks, run.mode = .tree trunkChunkBlocks → IsI32 trunkChunkBlocks
  cache : ∀ trunkChunkBlocks tileFanout, run.mode = .cache trunkChunkBlocks tileFanout →
    IsI32 trunkChunkBlocks ∧ tileFanout ≤ 16

/-- Runs of different modes whose digests hash the same bytes. -/
inductive SharesDigest : StandaloneRun → StandaloneRun → Prop where
  | batchCache (lo tileFanout : ℕ) (trunkChunkBlocks : ℤ)
      (h : lo + 2 = i32Bits trunkChunkBlocks + 2 ^ 32 * tileFanout) :
      SharesDigest ⟨.batch, [lo, lo + 1, lo + 2]⟩ ⟨.cache trunkChunkBlocks tileFanout, [lo, lo + 1]⟩
  | chunkedTree (index blocksPerChunk : ℕ) :
      SharesDigest ⟨.chunked blocksPerChunk, [index]⟩ ⟨.tree blocksPerChunk, [index]⟩

/-! ## Accepted runs -/

/-- A positive `i32` parses as the same `usize`. -/
theorem parseUsize_of_parseI32 {text : String} {value : ℤ} (h : parseI32 text = some value)
    (hpos : 0 < value) : parseUsize text = some value.toNat := by
  obtain ⟨-, hhigh⟩ := parseI32_isI32 h
  have hexact : ∀ digits : List Char, (parseDigits digits).map (fun n : ℕ => (n : ℤ)) = some value →
      (parseDigits digits).filter (· < 2 ^ 64) = some value.toNat := by
    rintro digits hdigits
    obtain ⟨n, hn, rfl⟩ := Option.map_eq_some_iff.mp hdigits
    rw [hn, Int.toNat_natCast]
    exact Option.filter_eq_some_iff.mpr ⟨rfl, by simp; omega⟩
  simp only [parseI32, Option.filter_eq_some_iff] at h
  obtain ⟨h, -⟩ := h
  unfold parseUsize
  split at h
  · obtain ⟨n, -, rfl⟩ := Option.map_eq_some_iff.mp h
    omega
  · rename_i hplus
    rw [hplus]
    exact hexact _ h
  · rename_i hminus hplus
    split
    · rename_i digits hlist
      exact absurd hlist (hplus digits)
    · exact hexact _ h

/-- The trunk chunk blocks are an `i32`, unless the default is not. -/
theorem trunkChunkBlocksFromEnv_isI32 (env : StandaloneEnv) {default : ℤ} (h : IsI32 default) :
    IsI32 (trunkChunkBlocksFromEnv env default) := by
  unfold trunkChunkBlocksFromEnv
  cases hparse : env.chunkBlocks.bind parseI32 with
  | none => exact h
  | some value =>
    obtain ⟨text, -, htext⟩ := Option.bind_eq_some_iff.mp hparse
    exact parseI32_isI32 htext

/-- The validated fan-out is at most sixteen. -/
theorem validateTileFanout_le {value fanout : ℕ} (h : validateTileFanout value = .ok fanout) :
    fanout ≤ 16 := by
  unfold validateTileFanout at h
  split at h
  · cases h
  · split at h
    · cases h
    · rename_i hle
      cases h
      exact not_lt.mp hle

/-- A single index is a range. -/
theorem rangeIndices_self (index : ℕ) : rangeIndices index index = [index] := by
  simp [rangeIndices]

/-- A range in order starts with its lower end. -/
theorem rangeIndices_cons {lo hi : ℕ} (h : lo ≤ hi) :
    rangeIndices lo hi = lo :: rangeIndices (lo + 1) hi := by
  unfold rangeIndices
  rw [show hi + 1 - lo = (hi + 1 - (lo + 1)) + 1 by omega, List.range'_succ]

/-- The first index of a range in order. -/
theorem rangeIndices_headD {lo hi : ℕ} (h : lo ≤ hi) : (rangeIndices lo hi).headD 0 = lo := by
  rw [rangeIndices_cons h, List.headD_cons]

/-- A range of two indices. -/
theorem rangeIndices_two (lo : ℕ) : rangeIndices lo (lo + 1) = [lo, lo + 1] := by
  rw [rangeIndices_cons (by omega), rangeIndices_self]

/-- A range of three indices. -/
theorem rangeIndices_three (lo : ℕ) : rangeIndices lo (lo + 2) = [lo, lo + 1, lo + 2] := by
  rw [rangeIndices_cons (by omega), rangeIndices_two (lo + 1)]

/-- A range out of order is empty. -/
theorem rangeIndices_nil {lo hi : ℕ} (h : hi < lo) : rangeIndices lo hi = [] := by
  simp [rangeIndices, Nat.sub_eq_zero_of_le (Nat.succ_le_of_lt h)]

/-- A range in order ends with its upper end. -/
theorem rangeIndices_getLastD {lo hi : ℕ} (h : lo ≤ hi) : (rangeIndices lo hi).getLastD 0 = hi := by
  unfold rangeIndices
  rw [show hi + 1 - lo = (hi - lo) + 1 by omega, List.range'_concat]
  simp
  omega

/-- The members of a range are at most its upper end. -/
theorem le_of_mem_rangeIndices {lo hi index : ℕ} (h : index ∈ rangeIndices lo hi) : index ≤ hi := by
  simp only [rangeIndices, List.mem_range'_1] at h
  omega

/-- A run on a single index is well formed. -/
theorem selectSingleRun_wellFormed {env : StandaloneEnv} {index : ℕ} {run : StandaloneRun}
    (hindex : index ≤ maxIndex)
    (h : selectSingleRun env index (requestedModeFromEnv env false) = .ok run) :
    run.WellFormed := by
  have hrange : ∃ lo hi, lo ≤ hi ∧ hi ≤ maxIndex ∧ [index] = rangeIndices lo hi :=
    ⟨index, index, le_refl _, hindex, (rangeIndices_self index).symm⟩
  by_cases hpositive : envPositive env.chunkBlocks
  · obtain ⟨value, hparse, hpos⟩ := (Option.any_eq_true _ _).mp hpositive
    obtain ⟨text, htext, hvalue⟩ := Option.bind_eq_some_iff.mp hparse
    have hpos : 0 < value := of_decide_eq_true hpos
    have hblocks : chunkBlocksFromEnv env = some value.toNat := by
      simp only [chunkBlocksFromEnv, htext, Option.bind_some, parseUsize_of_parseI32 hvalue hpos]
      exact Option.filter_eq_some_iff.mpr ⟨rfl, by simp; omega⟩
    have hmode : requestedModeFromEnv env false = .chunked := by
      simp [requestedModeFromEnv, hpositive]
    rw [hmode] at h
    simp only [selectSingleRun, hblocks] at h
    obtain ⟨groups, -, hrun⟩ := bind_eq_ok h
    cases hrun
    refine ⟨hrange, ?_, by simp, by simp⟩
    rintro blocksPerChunk heq
    have hvalue' := (parseI32_isI32 hvalue).2
    cases heq
    exact ⟨by omega, index, rfl⟩
  · have hmode : requestedModeFromEnv env false = .full := by
      simp [requestedModeFromEnv, hpositive]
    rw [hmode] at h
    cases h
    exact ⟨hrange, by simp, by simp, by simp⟩

/-- A run on a range is well formed. -/
theorem selectRangeRun_wellFormed {env : StandaloneEnv} {lo hi : ℕ} {mode : RequestedMode}
    {run : StandaloneRun} (hhi : hi ≤ maxIndex)
    (h : selectRangeRun env (rangeIndices lo hi) mode = .ok run) : run.WellFormed := by
  have hrange : rangeIndices lo hi ≠ [] →
      ∃ lo' hi', lo' ≤ hi' ∧ hi' ≤ maxIndex ∧ rangeIndices lo hi = rangeIndices lo' hi' := by
    rintro hne
    refine ⟨lo, hi, ?_, hhi, rfl⟩
    by_contra hlt
    exact hne (rangeIndices_nil (not_le.mp hlt))
  cases mode with
  | full =>
    simp only [selectRangeRun] at h
    split at h
    · cases h
    · rename_i hne
      cases h
      exact ⟨hrange hne, by simp, by simp, by simp⟩
  | chunked => cases h
  | tree =>
    obtain ⟨_, hcheck, hrun⟩ := bind_eq_ok h
    cases hrun
    refine ⟨hrange ?_, by simp, ?_, by simp⟩
    · rintro hnil
      rw [hnil] at hcheck
      cases hcheck
    · rintro trunkChunkBlocks heq
      cases heq
      exact trunkChunkBlocksFromEnv_isI32 env (by unfold IsI32; omega)
  | cache =>
    obtain ⟨tileFanout, hfanout, hnext⟩ := bind_eq_ok h
    obtain ⟨_, hcheck, hrun⟩ := bind_eq_ok hnext
    cases hrun
    refine ⟨hrange ?_, by simp, by simp, ?_⟩
    · rintro hnil
      rw [hnil] at hcheck
      cases hcheck
    · rintro trunkChunkBlocks tileFanout' heq
      cases heq
      exact ⟨trunkChunkBlocksFromEnv_isI32 env (by unfold IsI32; omega),
        validateTileFanout_le hfanout⟩

/-- Every accepted run is well formed. -/
theorem run_wellFormed {request : StandaloneRequest} {run : StandaloneRun}
    (h : request.run = .ok run) : run.WellFormed := by
  obtain ⟨-, -, hselect⟩ := bind_eq_ok h
  cases hspec : request.indexSpec with
  | single index =>
    rw [hspec] at hselect
    exact selectSingleRun_wellFormed index.le_max hselect
  | range lo hi =>
    rw [hspec] at hselect
    exact selectRangeRun_wellFormed hi.le_max hselect

/-! ## The fields a digest hashes -/

/-- The fields a run's digest hashes: 64-bit integers, and at most one `i32` after them. -/
def StandaloneRun.fields (run : StandaloneRun) : List ℕ × Option ℤ :=
  match run.mode with
  | .batch => (run.indices, none)
  | .chunked blocksPerChunk => ([run.indices.headD 0], some blocksPerChunk)
  | .tree trunkChunkBlocks => (run.indices, some trunkChunkBlocks)
  | .cache trunkChunkBlocks tileFanout =>
    ([run.indices.headD 0, run.indices.getLastD 0, i32Bits trunkChunkBlocks + 2 ^ 32 * tileFanout],
      none)

/-- The bytes of the fields. -/
def fieldBytes (fields : List ℕ × Option ℤ) : List UInt8 :=
  match fields.2 with
  | none => batchBytes fields.1
  | some blocks => treeBytes fields.1 blocks

/-- The fields fit in their widths. -/
def FieldsFit (fields : List ℕ × Option ℤ) : Prop :=
  (∀ index ∈ fields.1, index < 2 ^ 64) ∧ ∀ blocks, fields.2 = some blocks → IsI32 blocks

/-- Fields which fit are determined by their bytes. -/
theorem fieldBytes_inj {a b : List ℕ × Option ℤ} (ha : FieldsFit a) (hb : FieldsFit b)
    (h : fieldBytes a = fieldBytes b) : a = b := by
  obtain ⟨indicesA, blocksA⟩ := a
  obtain ⟨indicesB, blocksB⟩ := b
  cases blocksA with
  | none =>
    cases blocksB with
    | none => rw [show indicesA = indicesB from indexBytes_inj ha.1 hb.1 h]
    | some blocksB => exact absurd h (batchBytes_ne_treeBytes _ _ _)
  | some blocksA =>
    cases blocksB with
    | none => exact absurd h.symm (batchBytes_ne_treeBytes _ _ _)
    | some blocksB =>
      obtain ⟨rfl, rfl⟩ := treeBytes_inj ha.1 hb.1 (ha.2 _ rfl) (hb.2 _ rfl) h
      rfl

/-- The fields of a well-formed run fit. -/
theorem StandaloneRun.WellFormed.fieldsFit {run : StandaloneRun} (h : run.WellFormed) :
    FieldsFit run.fields := by
  obtain ⟨mode, indices⟩ := run
  obtain ⟨lo, hi, hle, hhi, rfl⟩ := h.range
  unfold maxIndex at hhi
  have hindices : ∀ index ∈ rangeIndices lo hi, index < 2 ^ 64 := by
    rintro index hmem
    have := le_of_mem_rangeIndices hmem
    omega
  cases mode with
  | batch => exact ⟨hindices, by simp [fields]⟩
  | chunked blocksPerChunk =>
    have hblocks := (h.chunked _ rfl).1
    refine ⟨by simp [fields, rangeIndices_cons hle]; omega, ?_⟩
    rintro blocks heq
    cases heq
    unfold IsI32
    omega
  | tree trunkChunkBlocks =>
    refine ⟨hindices, ?_⟩
    rintro blocks heq
    cases heq
    exact h.tree _ rfl
  | cache trunkChunkBlocks tileFanout =>
    have hfanout := (h.cache _ _ rfl).2
    have htrunk := i32Bits_lt trunkChunkBlocks
    refine ⟨?_, by simp [fields]⟩
    simp only [fields, rangeIndices_getLastD hle, rangeIndices_headD hle, List.mem_cons,
      List.not_mem_nil, or_false, forall_eq_or_imp, forall_eq]
    omega

/-- A run's bytes are those of its fields. -/
theorem StandaloneRun.WellFormed.specBytes_eq {run : StandaloneRun} (h : run.WellFormed) :
    run.specBytes = fieldBytes run.fields := by
  obtain ⟨mode, indices⟩ := run
  cases mode with
  | batch => rfl
  | chunked blocksPerChunk => exact chunkSpecBytes_eq _ _
  | tree trunkChunkBlocks => rfl
  | cache trunkChunkBlocks tileFanout =>
    have hfanout : i32Bits tileFanout = tileFanout := by
      have := (h.cache _ _ rfl).2
      unfold i32Bits
      omega
    simp only [specBytes, fieldBytes, fields, cacheBytes_eq, hfanout]

/-! ## Runs with one digest -/

/-- A batch and a cached run with the same fields are a clash. -/
theorem sharesDigest_of_cache {batch cache : List ℕ} {trunkChunkBlocks : ℤ} {tileFanout : ℕ}
    (hbatch : (⟨.batch, batch⟩ : StandaloneRun).WellFormed)
    (hcache : (⟨.cache trunkChunkBlocks tileFanout, cache⟩ : StandaloneRun).WellFormed)
    (h : (⟨.batch, batch⟩ : StandaloneRun).fields =
      (⟨.cache trunkChunkBlocks tileFanout, cache⟩ : StandaloneRun).fields) :
    SharesDigest ⟨.batch, batch⟩ ⟨.cache trunkChunkBlocks tileFanout, cache⟩ := by
  obtain ⟨lo, hi, hle, -, rfl⟩ := hbatch.range
  obtain ⟨lo', hi', hle', -, rfl⟩ := hcache.range
  have hindices : rangeIndices lo hi =
      [lo', hi', i32Bits trunkChunkBlocks + 2 ^ 32 * tileFanout] := by
    have hfields := congrArg Prod.fst h
    simpa only [StandaloneRun.fields, rangeIndices_getLastD hle', rangeIndices_headD hle'] using
      hfields
  have hlen : hi = lo + 2 := by
    have := congrArg List.length hindices
    simp only [rangeIndices, List.length_range', List.length_cons, List.length_nil] at this
    omega
  rw [hlen, rangeIndices_three] at hindices
  obtain ⟨hlo, hhi, hthird⟩ : lo = lo' ∧ lo + 1 = hi' ∧
      lo + 2 = i32Bits trunkChunkBlocks + 2 ^ 32 * tileFanout := by
    simpa only [List.cons.injEq, and_true] using hindices
  rw [hlen, ← hlo, ← hhi, rangeIndices_three, rangeIndices_two]
  exact .batchCache lo tileFanout trunkChunkBlocks hthird

/-- A chunked run and one of the tree mode with the same fields are a clash. -/
theorem sharesDigest_of_tree {chunked tree : List ℕ} {blocksPerChunk : ℕ} {trunkChunkBlocks : ℤ}
    (hchunked : (⟨.chunked blocksPerChunk, chunked⟩ : StandaloneRun).WellFormed)
    (h : (⟨.chunked blocksPerChunk, chunked⟩ : StandaloneRun).fields =
      (⟨.tree trunkChunkBlocks, tree⟩ : StandaloneRun).fields) :
    SharesDigest ⟨.chunked blocksPerChunk, chunked⟩ ⟨.tree trunkChunkBlocks, tree⟩ := by
  obtain ⟨index, rfl⟩ := (hchunked.chunked _ rfl).2
  obtain ⟨rfl, hblocks⟩ := Prod.mk.inj h
  rw [← Option.some.inj hblocks]
  exact .chunkedTree index blocksPerChunk

/-- Two cached runs with the same fields are one run. -/
theorem cache_eq_of_fields {a b : List ℕ} {blocksA blocksB : ℤ} {fanoutA fanoutB : ℕ}
    (ha : (⟨.cache blocksA fanoutA, a⟩ : StandaloneRun).WellFormed)
    (hb : (⟨.cache blocksB fanoutB, b⟩ : StandaloneRun).WellFormed)
    (h : (⟨.cache blocksA fanoutA, a⟩ : StandaloneRun).fields =
      (⟨.cache blocksB fanoutB, b⟩ : StandaloneRun).fields) :
    (⟨.cache blocksA fanoutA, a⟩ : StandaloneRun) = ⟨.cache blocksB fanoutB, b⟩ := by
  obtain ⟨lo, hi, hle, -, rfl⟩ := ha.range
  obtain ⟨lo', hi', hle', -, rfl⟩ := hb.range
  obtain ⟨⟨hblocksA, -⟩, ⟨hblocksB, -⟩⟩ := And.intro (ha.cache _ _ rfl) (hb.cache _ _ rfl)
  have hltA := i32Bits_lt blocksA
  have hltB := i32Bits_lt blocksB
  simp only [StandaloneRun.fields, rangeIndices_getLastD hle, rangeIndices_headD hle,
    rangeIndices_getLastD hle', rangeIndices_headD hle', Prod.mk.injEq, List.cons.injEq,
    and_true] at h
  obtain ⟨rfl, rfl, hparameters⟩ := h
  have hblocks : blocksA = blocksB := i32Bits_inj hblocksA hblocksB (by omega)
  have hfanout : fanoutA = fanoutB := by
    rw [hblocks] at hparameters
    omega
  rw [hblocks, hfanout]

/-- Well-formed runs with the same fields are one run, or a clash of two modes. -/
theorem eq_or_sharesDigest {a b : StandaloneRun} (ha : a.WellFormed) (hb : b.WellFormed)
    (h : a.fields = b.fields) : a = b ∨ SharesDigest a b ∨ SharesDigest b a := by
  obtain ⟨modeA, indicesA⟩ := a
  obtain ⟨modeB, indicesB⟩ := b
  cases modeA with
  | batch =>
    cases modeB with
    | batch =>
      left
      rw [show indicesA = indicesB from (Prod.mk.inj h).1]
    | chunked => cases (Prod.mk.inj h).2
    | tree => cases (Prod.mk.inj h).2
    | cache => exact .inr (.inl (sharesDigest_of_cache ha hb h))
  | chunked blocksPerChunk =>
    cases modeB with
    | batch => cases (Prod.mk.inj h).2
    | chunked blocksPerChunk' =>
      obtain ⟨index, rfl⟩ := (ha.chunked _ rfl).2
      obtain ⟨index', rfl⟩ := (hb.chunked _ rfl).2
      obtain ⟨hindex, hblocks⟩ := Prod.mk.inj h
      left
      rw [show [index] = [index'] from hindex, Int.ofNat.inj (Option.some.inj hblocks)]
    | tree => exact .inr (.inl (sharesDigest_of_tree ha h))
    | cache => cases (Prod.mk.inj h).2
  | tree trunkChunkBlocks =>
    cases modeB with
    | batch => cases (Prod.mk.inj h).2
    | chunked => exact .inr (.inr (sharesDigest_of_tree hb h.symm))
    | tree =>
      obtain ⟨hindices, hblocks⟩ := Prod.mk.inj h
      left
      rw [show indicesA = indicesB from hindices, Option.some.inj hblocks]
    | cache => cases (Prod.mk.inj h).2
  | cache =>
    cases modeB with
    | batch => exact .inr (.inr (sharesDigest_of_cache hb ha h.symm))
    | chunked => cases (Prod.mk.inj h).2
    | tree => cases (Prod.mk.inj h).2
    | cache => exact .inl (cache_eq_of_fields ha hb h)

/-- The runs of a clash are different. -/
theorem SharesDigest.ne {a b : StandaloneRun} (h : SharesDigest a b) : a ≠ b := by
  cases h with
  | batchCache lo tileFanout trunkChunkBlocks h => simp
  | chunkedTree index blocksPerChunk => simp

/-- The runs of a clash hash the same bytes. -/
theorem SharesDigest.specBytes_eq {a b : StandaloneRun} (hb : b.WellFormed) (h : SharesDigest a b) :
    a.specBytes = b.specBytes := by
  cases h with
  | batchCache lo tileFanout trunkChunkBlocks h =>
    rw [hb.specBytes_eq]
    simp [StandaloneRun.specBytes, fieldBytes, StandaloneRun.fields, h]
  | chunkedTree index blocksPerChunk => exact chunkSpecBytes_eq _ _

/-! ## The exchange -/

/-- Both sides' outcomes when each receives the digest the other sent. -/
def exchangeBoth (sha256 : List UInt8 → Value32) (sha : Circuit) (alice bob : StandaloneRun) :
    Except StandaloneError Unit × Except StandaloneError Unit :=
  (exchangeCircuitDigest (alice.digest sha256 sha) (bob.digest sha256 sha),
    exchangeCircuitDigest (bob.digest sha256 sha) (alice.digest sha256 sha))

/-- The exchange succeeds on both sides exactly when the digests agree. -/
theorem exchangeBoth_ok {sha256 : List UInt8 → Value32} {sha : Circuit}
    {alice bob : StandaloneRun} :
    exchangeBoth sha256 sha alice bob = (.ok (), .ok ()) ↔
      alice.digest sha256 sha = bob.digest sha256 sha := by
  simp only [exchangeBoth, exchangeCircuitDigest, Prod.mk.injEq]
  constructor
  · rintro ⟨-, h⟩
    by_contra hne
    rw [if_neg hne] at h
    cases h
  · rintro h
    simp [h]

/-- Where the hash does not collide, parties which pass the exchange run the same mode with the
same parameters on the same indices, unless their two modes clash. -/
theorem exchange_separates_runs (sha256 : List UInt8 → Value32) (sha : Circuit)
    {requestA requestB : StandaloneRequest} {alice bob : StandaloneRun}
    (hrequestA : requestA.run = .ok alice) (hrequestB : requestB.run = .ok bob)
    (hfree : Set.InjOn sha256 {alice.digestInput sha256 sha, bob.digestInput sha256 sha}) :
    (exchangeBoth sha256 sha alice bob = (.ok (), .ok ()) → alice = bob) ↔
      ¬(SharesDigest alice bob ∨ SharesDigest bob alice) := by
  have halice := run_wellFormed hrequestA
  have hbob := run_wellFormed hrequestB
  rw [exchangeBoth_ok]
  constructor
  · rintro hagree hclash
    have hbytes : alice.specBytes = bob.specBytes :=
      hclash.elim (·.specBytes_eq hbob) fun h => (h.specBytes_eq halice).symm
    have heq := hagree (by simp only [StandaloneRun.digest, StandaloneRun.digestInput, hbytes])
    exact hclash.elim (·.ne heq) (·.ne heq.symm)
  · rintro hclash hdigest
    have hinput := hfree (by simp) (by simp) hdigest
    have hbytes : alice.specBytes = bob.specBytes := List.append_cancel_right hinput
    rw [halice.specBytes_eq, hbob.specBytes_eq] at hbytes
    exact (eq_or_sharesDigest halice hbob (fieldBytes_inj halice.fieldsFit hbob.fieldsFit hbytes))
      |>.resolve_right hclash

/-- An environment with no variable set. -/
def defaultEnv : StandaloneEnv := ⟨none, none, none, none⟩

/-- A request for one index. -/
def singleRequest (index : Index48) (env : StandaloneEnv) : StandaloneRequest :=
  ⟨.single index, false, env⟩

/-- A request for a range. -/
def rangeRequest (lo hi : Index48) (env : StandaloneEnv) : StandaloneRequest :=
  ⟨.range lo hi, false, env⟩

/-- A batch and a cached range of the same two indices do not clash, and do not pass the
exchange. -/
theorem exchange_separates_runs_modes :
    (exchangeBoth Value32.ofList ⟨1, 0, 0, 0, []⟩ ⟨.batch, [2, 3]⟩ ⟨.cache 16 16, [2, 3]⟩ =
      (.ok (), .ok ()) →
      (⟨.batch, [2, 3]⟩ : StandaloneRun) = ⟨.cache 16 16, [2, 3]⟩) ↔
      ¬(SharesDigest ⟨.batch, [2, 3]⟩ ⟨.cache 16 16, [2, 3]⟩ ∨
        SharesDigest ⟨.cache 16 16, [2, 3]⟩ ⟨.batch, [2, 3]⟩) := by
  have halice :
      (rangeRequest ⟨2, by decide⟩ ⟨3, by decide⟩ defaultEnv).run = .ok ⟨.batch, [2, 3]⟩ := by
    decide +kernel
  have hbob :
      (rangeRequest ⟨2, by decide⟩ ⟨3, by decide⟩ { defaultEnv with cache := some "1" }).run =
      .ok ⟨.cache 16 16, [2, 3]⟩ := by
    decide +kernel
  have hdistinct :
      (⟨.batch, [2, 3]⟩ : StandaloneRun).digest Value32.ofList ⟨1, 0, 0, 0, []⟩ ≠
        (⟨.cache 16 16, [2, 3]⟩ : StandaloneRun).digest Value32.ofList ⟨1, 0, 0, 0, []⟩ := by
    decide +kernel
  refine exchange_separates_runs Value32.ofList ⟨1, 0, 0, 0, []⟩ halice hbob ?_
  rintro x (rfl | rfl) y (rfl | rfl) h
  · rfl
  · exact absurd h hdistinct
  · exact absurd h.symm hdistinct
  · rfl

/-- A batch of three indices and a cached range of two hash the same bytes with every parameter
at its default; so do a chunked run and the tree mode on the range of its index. -/
theorem exchange_separates_runs_clash :
    ((rangeRequest ⟨0x100000000e, by decide⟩ ⟨0x1000000010, by decide⟩ defaultEnv).run =
        .ok ⟨.batch, [0x100000000e, 0x100000000f, 0x1000000010]⟩ ∧
      (rangeRequest ⟨0x100000000e, by decide⟩ ⟨0x100000000f, by decide⟩
          { defaultEnv with cache := some "1" }).run =
        .ok ⟨.cache 16 16, [0x100000000e, 0x100000000f]⟩ ∧
      ∀ sha256 sha, exchangeBoth sha256 sha ⟨.batch, [0x100000000e, 0x100000000f, 0x1000000010]⟩
        ⟨.cache 16 16, [0x100000000e, 0x100000000f]⟩ = (.ok (), .ok ())) ∧
    ((singleRequest ⟨1, by decide⟩ { defaultEnv with chunkBlocks := some "1" }).run =
        .ok ⟨.chunked 1, [1]⟩ ∧
      (rangeRequest ⟨1, by decide⟩ ⟨1, by decide⟩
          { defaultEnv with tree := some "1", chunkBlocks := some "1" }).run =
        .ok ⟨.tree 1, [1]⟩ ∧
      ∀ sha256 sha, exchangeBoth sha256 sha ⟨.chunked 1, [1]⟩ ⟨.tree 1, [1]⟩ =
          (.ok (), .ok ())) := by
  refine ⟨⟨by decide +kernel, by decide +kernel, ?_⟩, by decide +kernel, by decide +kernel, ?_⟩
  · rintro sha256 sha
    have hbytes : (⟨.batch, [0x100000000e, 0x100000000f, 0x1000000010]⟩ : StandaloneRun).specBytes =
        (⟨.cache 16 16, [0x100000000e, 0x100000000f]⟩ : StandaloneRun).specBytes := by
      decide +kernel
    rw [exchangeBoth_ok]
    simp only [StandaloneRun.digest, StandaloneRun.digestInput, hbytes]
  · rintro sha256 sha
    have hbytes : (⟨.chunked 1, [1]⟩ : StandaloneRun).specBytes =
        (⟨.tree 1, [1]⟩ : StandaloneRun).specBytes := by decide +kernel
    rw [exchangeBoth_ok]
    simp only [StandaloneRun.digest, StandaloneRun.digestInput, hbytes]

end Shachain2pc
