import Mathlib.Algebra.Order.Floor.Div

/-!
# Drawing from a source which yields chunks

A source yields chunks of a fixed size, or fails. A draw takes what the buffer holds, fetches
as many chunks as it still lacks, and buffers what it does not need. Draws compose, so what
several draws give together depends only on how many elements they take. Nothing fetched is
drawn twice, and nothing is drawn in another order than it was fetched.
-/

namespace ChunkedStream

variable {E S A B : Type}

/-- A source, with what it has yielded and nobody has drawn. -/
structure Buffered (S A : Type) where
  source : S
  buffer : List A

/-- Fetch a number of chunks. -/
def fetch (chunk : EStateM E S (List A)) : ℕ → EStateM E S (List A)
  | 0 => pure []
  | n + 1 => do
    let first ← chunk
    let rest ← fetch chunk n
    return first ++ rest

/-- Draw elements; a failed fetch leaves an empty buffer. -/
def draw (chunk : EStateM E S (List A)) (size n : ℕ) : EStateM E (Buffered S A) (List A) :=
  fun s => match fetch chunk ((n - s.buffer.length) ⌈/⌉ size) s.source with
    | .ok new source => .ok ((s.buffer ++ new).take n) ⟨source, (s.buffer ++ new).drop n⟩
    | .error e source => .error e ⟨source, []⟩

/-- Draw several times, and put together what the draws give. -/
def drawAll (chunk : EStateM E S (List A)) (size : ℕ) : List ℕ → EStateM E (Buffered S A) (List A)
  | [] => pure []
  | n :: rest => do
    let first ← draw chunk size n
    let later ← drawAll chunk size rest
    return first ++ later

/-- Every chunk has the given size. -/
def Chunked (chunk : EStateM E S (List A)) (size : ℕ) : Prop :=
  ∀ s new t, chunk s = .ok new t → new.length = size

variable {chunk : EStateM E S (List A)} {size : ℕ}

/-- Fetches compose. -/
theorem fetch_add (m n : ℕ) : fetch chunk (m + n) = do
    let first ← fetch chunk m
    let rest ← fetch chunk n
    return first ++ rest := by
  induction m with
  | zero =>
    rw [Nat.zero_add, fetch]
    funext s
    simp only [bind, EStateM.bind, pure, EStateM.pure, List.nil_append]
    cases fetch chunk n s <;> rfl
  | succ m ih =>
    rw [Nat.add_right_comm, fetch, ih, fetch]
    funext s
    simp only [bind, EStateM.bind, pure, EStateM.pure]
    cases chunk s with
    | error e t => rfl
    | ok first t =>
      simp only
      cases fetch chunk m t with
      | error e t => rfl
      | ok rest t =>
        simp only
        cases fetch chunk n t with
        | error e t => rfl
        | ok last t => simp only [List.append_assoc]

/-- A fetch of more fails where a fetch fails. -/
theorem fetch_add_error {m : ℕ} (n : ℕ) {s t : S} {e : E} (h : fetch chunk m s = .error e t) :
    fetch chunk (m + n) s = .error e t := by
  rw [fetch_add]
  simp only [bind, EStateM.bind, h]

/-- One more chunk. -/
theorem fetch_succ_ok {n : ℕ} {s t u : S} {new last : List A} (h : fetch chunk n s = .ok new t)
    (hlast : chunk t = .ok last u) : fetch chunk (n + 1) s = .ok (new ++ last) u := by
  rw [fetch_add]
  simp only [bind, EStateM.bind, h, fetch, hlast, pure, EStateM.pure, List.append_nil]

/-- One more chunk, which fails. -/
theorem fetch_succ_error {n : ℕ} {s t u : S} {new : List A} {e : E}
    (h : fetch chunk n s = .ok new t) (hlast : chunk t = .error e u) :
    fetch chunk (n + 1) s = .error e u := by
  rw [fetch_add]
  simp only [bind, EStateM.bind, h, fetch, hlast]

/-- Fetched chunks have their sizes together. -/
theorem fetch_length (hchunk : Chunked chunk size) {n : ℕ} {s t : S} {new : List A}
    (h : fetch chunk n s = .ok new t) : new.length = n * size := by
  induction n generalizing s t new with
  | zero =>
    cases h
    simp
  | succ n ih =>
    simp only [fetch, bind, EStateM.bind, pure, EStateM.pure] at h
    cases hfirst : chunk s with
    | error e mid => simp [hfirst] at h
    | ok first mid =>
      simp only [hfirst] at h
      cases hrest : fetch chunk n mid with
      | error e last => simp [hrest] at h
      | ok rest last =>
        simp only [hrest] at h
        cases h
        rw [List.length_append, hchunk _ _ _ hfirst, ih hrest, Nat.succ_mul, Nat.add_comm]

/-- The chunks which two draws lack are those which one draw of their sum lacks. -/
theorem lacking_add (hsize : 0 < size) (buffered m n : ℕ) :
    (m + n - buffered) ⌈/⌉ size = (m - buffered) ⌈/⌉ size +
      (n - (buffered + (m - buffered) ⌈/⌉ size * size - m)) ⌈/⌉ size := by
  generalize hk : (m - buffered) ⌈/⌉ size = k
  have hle (j : ℕ) : k ≤ j ↔ m - buffered ≤ size * j := by
    rw [← hk, ceilDiv_le_iff_le_mul hsize]
  have henough : m - buffered ≤ k * size := by
    rw [Nat.mul_comm]
    exact (hle k).mp le_rfl
  apply eq_of_forall_ge_iff
  intro j
  rw [ceilDiv_le_iff_le_mul hsize]
  constructor
  · intro h
    obtain ⟨d, rfl⟩ := Nat.exists_eq_add_of_le ((hle j).mpr (by omega))
    rw [Nat.add_le_add_iff_left, ceilDiv_le_iff_le_mul hsize]
    rw [Nat.mul_add, Nat.mul_comm size k] at h
    omega
  · intro h
    obtain ⟨d, rfl⟩ := Nat.exists_eq_add_of_le ((Nat.le_add_right ..).trans h)
    rw [Nat.add_le_add_iff_left, ceilDiv_le_iff_le_mul hsize] at h
    rw [Nat.mul_add, Nat.mul_comm size k]
    omega

/-- A draw of nothing changes nothing. -/
theorem draw_zero : draw chunk size 0 = pure [] := by
  funext s
  simp [draw, fetch, pure, EStateM.pure]

/-- Two draws give together what one draw of their sum gives. -/
theorem draw_add (hsize : 0 < size) (hchunk : Chunked chunk size) (m n : ℕ) :
    draw chunk size (m + n) = do
      let first ← draw chunk size m
      let later ← draw chunk size n
      return first ++ later := by
  funext s
  obtain ⟨source, buffer⟩ := s
  simp only [draw, bind, EStateM.bind, pure, EStateM.pure]
  rw [lacking_add hsize, fetch_add]
  simp only [bind, EStateM.bind, pure, EStateM.pure]
  cases hfirst : fetch chunk ((m - buffer.length) ⌈/⌉ size) source with
  | error e mid => rfl
  | ok new mid =>
    have hlength := fetch_length hchunk hfirst
    simp only [List.length_drop, List.length_append, hlength]
    cases fetch chunk
      ((n - (buffer.length + (m - buffer.length) ⌈/⌉ size * size - m)) ⌈/⌉ size) mid with
    | error e last => rfl
    | ok later last =>
      have henough : m ≤ (buffer ++ new).length := by
        have hle := (ceilDiv_le_iff_le_mul hsize).mp (le_refl ((m - buffer.length) ⌈/⌉ size))
        rw [Nat.mul_comm] at hle
        rw [List.length_append, hlength]
        omega
      simp only
      rw [← List.append_assoc, List.take_add, ← List.drop_drop,
        List.take_append_of_le_length henough, List.drop_append_of_le_length henough]

/-- Draws one after the other give what one draw of their total gives. -/
theorem drawAll_eq (hsize : 0 < size) (hchunk : Chunked chunk size) (lengths : List ℕ) :
    drawAll chunk size lengths = draw chunk size (lengths.foldr (· + ·) 0) := by
  induction lengths with
  | nil => exact draw_zero.symm
  | cons n rest ih => rw [drawAll, ih, List.foldr_cons, draw_add hsize hchunk]

/-- What a draw gives and what it leaves buffered is what was buffered, and what was fetched. -/
theorem draw_eq_ok {n : ℕ} {s t : Buffered S A} {out : List A}
    (h : draw chunk size n s = .ok out t) :
    ∃ new, fetch chunk ((n - s.buffer.length) ⌈/⌉ size) s.source = .ok new t.source ∧
      out ++ t.buffer = s.buffer ++ new := by
  unfold draw at h
  cases hfetch : fetch chunk ((n - s.buffer.length) ⌈/⌉ size) s.source with
  | error e last => simp [hfetch] at h
  | ok new last =>
    simp only [hfetch] at h
    cases h
    exact ⟨new, rfl, List.take_append_drop ..⟩

/-- A draw which succeeds gives as many elements as were asked for. -/
theorem draw_length (hsize : 0 < size) (hchunk : Chunked chunk size) {n : ℕ} {s t : Buffered S A}
    {out : List A} (h : draw chunk size n s = .ok out t) : out.length = n := by
  unfold draw at h
  cases hfetch : fetch chunk ((n - s.buffer.length) ⌈/⌉ size) s.source with
  | error e last => simp [hfetch] at h
  | ok new last =>
    have hlength := fetch_length hchunk hfetch
    have henough := (ceilDiv_le_iff_le_mul hsize).mp (le_refl ((n - s.buffer.length) ⌈/⌉ size))
    rw [Nat.mul_comm, ← hlength] at henough
    simp only [hfetch] at h
    cases h
    rw [List.length_take, List.length_append]
    omega

end ChunkedStream
