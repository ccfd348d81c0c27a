import TcpCongestion.ShiftRegister

/-! The generator of `base/random.cc`. The model keeps its array and its index; the words it
hands out are terms of a recurrence that starts from the seed, whatever the calls before. -/
namespace TcpCongestion.MersenneTwister
open ShiftRegister

/-- State machine size. -/
abbrev N : Nat := 624
abbrev M : Nat := 397
def MATRIX_A : UInt32 := 0x9908b0df
def UPPER_MASK : UInt32 := 0x80000000
def LOWER_MASK : UInt32 := 0x7fffffff

private theorem one_lt_N : 1 < N := by decide
private theorem M_pos : 0 < M := by decide
private theorem M_lt_N : M < N := by decide
private theorem one_lt_M : 1 < M := by decide

structure Random where
  mt : Vector UInt32 N
  mti : Nat
  mti_le : mti ≤ N + 1

/-- The constructor does not write the array. -/
def Random.new (unwritten : Vector UInt32 N) : Random := ⟨unwritten, N + 1, le_rfl⟩

/-- The constant is `unsigned long`: the product is one of 64 bits, cut where it is stored. -/
def seedWord (before : UInt32) (mti : Nat) : UInt32 :=
  ((1812433253 : UInt64) * (before ^^^ (before >>> 30)).toUInt64 + mti.toUInt64).toUInt32

def Random.initGenrand (r : Random) (s : UInt32) : Random where
  mt := Nat.fold (N - 1) (fun i inside mt => mt.set (i + 1) (seedWord mt[i] (i + 1)) (by omega))
    (r.mt.set 0 s)
  mti := N
  mti_le := Nat.le_succ N

def mag01 (bit : UInt32) : UInt32 := if bit = 0 then 0 else MATRIX_A

/-- The word that the three loops store, from the words they read. -/
def twist (upper lower later : UInt32) : UInt32 :=
  let y := (upper &&& UPPER_MASK) ||| (lower &&& LOWER_MASK)
  later ^^^ (y >>> 1) ^^^ mag01 (y &&& 1)

/-- The first loop: the third word is read ahead of the cell. -/
def twistAhead (mt : Vector UInt32 N) : Vector UInt32 N :=
  have := M_pos
  Nat.fold (N - M) (fun kk inside mt =>
    mt.set kk (twist mt[kk] mt[kk + 1] mt[kk + M]) (by omega)) mt

/-- The second loop, from where the first one stopped: the third word is one of those
already written, at `kk + (M - N)` in the wrapping arithmetic of the source. -/
def twistAround (mt : Vector UInt32 N) : Vector UInt32 N :=
  have := M_pos
  have := M_lt_N
  Nat.fold (M - 1) (fun i inside mt =>
    mt.set (N - M + i) (twist mt[N - M + i] mt[N - M + i + 1] mt[i]) (by omega)) mt

/-- Generate `N` words at one time. -/
def generate (mt : Vector UInt32 N) : Vector UInt32 N :=
  let mt := twistAround (twistAhead mt)
  mt.set (N - 1) (twist mt[N - 1] mt[0] mt[M - 1])

def temper (y : UInt32) : UInt32 :=
  let y := y ^^^ (y >>> 11)
  let y := y ^^^ ((y <<< 7) &&& 0x9d2c5680)
  let y := y ^^^ ((y <<< 15) &&& 0xefc60000)
  y ^^^ (y >>> 18)

def Random.genrandInt32 (r : Random) : UInt32 × Random :=
  if h : r.mti < N then (temper r.mt[r.mti], ⟨r.mt, r.mti + 1, Nat.le_succ_of_le h⟩)
  else
    let r := if r.mti = N + 1 then r.initGenrand 5489 else r
    let mt := generate r.mt
    (temper mt[0], ⟨mt, 1, Nat.le_add_left 1 N⟩)

/-- The calls that reach the array, without `init_by_array`, which writes it in another way. The
other methods draw one word, or two in `genrand_res53`, and compute on what they drew. -/
inductive Call where
  | seed (value : UInt32)
  | genrandInt32

def Random.call (r : Random) : Call → List UInt32 × Random
  | .seed value => ([], r.initGenrand value)
  | .genrandInt32 => ([r.genrandInt32.1], r.genrandInt32.2)

/-- The words a generator hands out. -/
def Random.calls (r : Random) : List Call → List UInt32
  | [] => []
  | call :: rest => (r.call call).1 ++ (r.call call).2.calls rest

/-! ## The recurrence -/

abbrev lags : Lags := ⟨N, M, one_lt_N, M_pos, M_lt_N⟩

/-- The words of the seed: each from the one before. -/
def seedWords (s : UInt32) : Nat → UInt32
  | 0 => s
  | i + 1 => seedWord (seedWords s i) (i + 1)

def seeded (s : UInt32) : Vector UInt32 N := Vector.ofFn fun i => seedWords s i

abbrev mersenne (cells : Vector UInt32 N) : Nat → UInt32 := stream lags twist cells

/-- The generator seen from outside: a seed and how many words were taken since. -/
structure Sequence where
  seed : UInt32
  drawn : Nat

def Sequence.word (q : Sequence) : UInt32 := temper (mersenne (seeded q.seed) (N + q.drawn))

def Sequence.call (q : Sequence) : Call → List UInt32 × Sequence
  | .seed value => ([], ⟨value, 0⟩)
  | .genrandInt32 => ([q.word], ⟨q.seed, q.drawn + 1⟩)

def Sequence.calls (q : Sequence) : List Call → List UInt32
  | [] => []
  | call :: rest => (q.call call).1 ++ (q.call call).2.calls rest

/-- Seeding writes every cell: nothing of the array before it is left. -/
theorem initGenrand_mt (r : Random) (s : UInt32) : (r.initGenrand s).mt = seeded s := by
  have written : ∀ i (inside : i < N), i ≤ N - 1 → (r.initGenrand s).mt[i] = seedWords s i := by
    unfold Random.initGenrand
    refine fold_invariant
      (P := fun count (mt : Vector UInt32 N) => ∀ i (inside : i < N), i ≤ count → mt[i] = seedWords s i)
      (N - 1) ?_ ?_
    · intro i inside first
      obtain rfl : i = 0 := by omega
      rw [Vector.getElem_set_self, seedWords]
    · intro count inside mt so i within upto
      rw [Vector.getElem_set]
      split
      · next same =>
        subst same
        rw [seedWords, so count (by omega) le_rfl]
      · exact so i within (by omega)
  ext i inside
  rw [written i inside (by omega), seeded, Vector.getElem_ofFn]

private theorem lags_n : lags.n = N := rfl
private theorem lags_m : lags.m = M := rfl

section Sweep

variable {start cells : Vector UInt32 N} {base place : Nat} {r : Random}

private theorem twistAhead_swept (holds : Holds (mersenne start) base cells) :
    Swept (mersenne start) base (N - M) (twistAhead cells) := by
  have := M_pos
  have := lags_n
  refine fold_invariant (P := Swept (mersenne start) base) (N - M) holds.swept ?_
  intro kk inside cells swept
  exact swept.step (kk + 1) (kk + M) (by omega) (by omega) (by omega) (.inl rfl) (.inl rfl)

private theorem twistAround_swept (swept : Swept (mersenne start) base (N - M) cells) :
    Swept (mersenne start) base (N - 1) (twistAround cells) := by
  have := M_pos
  have := M_lt_N
  have := lags_n
  have := lags_m
  refine fold_invariant (P := fun i => Swept (mersenne start) base (N - M + i)) (M - 1) swept ?_
  intro i inside cells swept
  exact swept.step (N - M + i + 1) i (by omega) (by omega) (by omega) (.inl rfl) (.inr (by omega))

/-- The three loops are one sweep of the recurrence. -/
theorem generate_holds (holds : Holds (mersenne start) base cells) :
    Holds (mersenne start) (base + N) (generate cells) := by
  have := M_pos
  have := M_lt_N
  have := lags_n
  have := lags_m
  have swept := twistAround_swept (twistAhead_swept holds)
  exact (swept.step 0 (M - 1) (by omega) (by omega) (by omega) (.inr (by omega)) (.inr (by omega))).holds

end Sweep

/-! ## What the generator hands out -/

section Draws

variable {start : Vector UInt32 N} {place : Nat} {r : Random}

/-- The next word of the generator is the term `place` of the sequence. -/
def At (x : Nat → UInt32) (place : Nat) (r : Random) : Prop :=
  r.mti ≤ N ∧ ∃ base, Holds x base r.mt ∧ base + r.mti = place

private theorem genrandInt32_at (here : At (mersenne start) place r) :
    r.genrandInt32.1 = temper (mersenne start place) ∧
      At (mersenne start) (place + 1) r.genrandInt32.2 := by
  obtain ⟨bound, base, holds, rfl⟩ := here
  unfold Random.genrandInt32
  split
  · next inside =>
    refine ⟨?_, inside, base, holds, rfl⟩
    rw [holds r.mti inside]
  · next full =>
    have last : r.mti = N := by omega
    have next := generate_holds holds
    rw [if_neg (by omega), last]
    refine ⟨?_, Nat.le_of_lt one_lt_N, base + N, next, rfl⟩
    exact congrArg temper (next 0 (Nat.lt_of_succ_lt one_lt_N))

private theorem initGenrand_at (r : Random) (s : UInt32) :
    At (mersenne (seeded s)) (N + 0) (r.initGenrand s) := by
  refine ⟨le_rfl, 0, ?_, Nat.add_comm 0 N⟩
  intro i inside
  rw [initGenrand_mt, Nat.zero_add, mersenne, stream_inside]

/-- A generator that was never seeded works as one with the default seed. -/
theorem genrandInt32_unseeded (unseeded : r.mti = N + 1) :
    r.genrandInt32 = (r.initGenrand 5489).genrandInt32 := by
  have seededThere : (r.initGenrand 5489).mti = N := rfl
  rw [Random.genrandInt32, Random.genrandInt32, dif_neg (by omega), dif_neg (by omega),
    if_pos unseeded, if_neg (by omega)]

/-- The state of the generator and its view from outside. -/
def Represents (r : Random) (q : Sequence) : Prop :=
  At (mersenne (seeded q.seed)) (N + q.drawn) r ∨ r.mti = N + 1 ∧ q = ⟨5489, 0⟩

private theorem call_represents (represents : Represents r q) (call : Call) :
    (r.call call).1 = (q.call call).1 ∧ Represents (r.call call).2 (q.call call).2 := by
  cases call with
  | seed value => exact ⟨rfl, .inl (initGenrand_at r value)⟩
  | genrandInt32 =>
    rw [Random.call]
    obtain here | ⟨unseeded, rfl⟩ := represents
    · obtain ⟨word, next⟩ := genrandInt32_at here
      exact ⟨congrArg ([·]) word, .inl next⟩
    · rw [genrandInt32_unseeded unseeded]
      obtain ⟨word, next⟩ := genrandInt32_at (initGenrand_at r 5489)
      exact ⟨congrArg ([·]) word, .inl next⟩

private theorem calls_represents (calls : List Call) (represents : Represents r q) :
    r.calls calls = q.calls calls := by
  induction calls generalizing r q with
  | nil => rfl
  | cons call rest ih =>
    obtain ⟨words, next⟩ := call_represents represents call
    rw [Random.calls, Sequence.calls, words, ih next]

end Draws

/-- Whatever its array held when it was made and however it is seeded and asked in between,
the generator hands out the terms of the recurrence of its last seed, in order and none left
out, the default seed standing in before the first. -/
theorem generator_hands_out_sequence (unwritten : Vector UInt32 N) (calls : List Call) :
    (Random.new unwritten).calls calls = (Sequence.mk 5489 0).calls calls :=
  calls_represents calls (.inr ⟨rfl, rfl⟩)

/-! ## What its words tell -/

private theorem shiftRight_injective (shift : UInt32) (positive : 0 < shift.toNat % 32) :
    Function.Injective fun y : UInt32 => y ^^^ (y >>> shift) := by
  intro y z same
  have words := congrArg UInt32.toBitVec same
  simp only [UInt32.toBitVec_xor, UInt32.toBitVec_shiftRight] at words
  exact UInt32.toBitVec_inj.mp (xor_shiftRight_injective (by simpa using positive) words)

private theorem shiftLeft_injective (shift mask : UInt32) (positive : 0 < shift.toNat % 32) :
    Function.Injective fun y : UInt32 => y ^^^ ((y <<< shift) &&& mask) := by
  intro y z same
  have words := congrArg UInt32.toBitVec same
  simp only [UInt32.toBitVec_xor, UInt32.toBitVec_and, UInt32.toBitVec_shiftLeft] at words
  exact UInt32.toBitVec_inj.mp (xor_shiftLeft_and_injective (by simpa using positive) _ words)

/-- Tempering loses nothing of a word. -/
theorem temper_injective : Function.Injective temper :=
  (shiftRight_injective 18 (by decide)).comp <|
    (shiftLeft_injective 15 _ (by decide)).comp <|
      (shiftLeft_injective 7 _ (by decide)).comp (shiftRight_injective 11 (by decide))

/-- The multiplier of the seeding loop is odd, so it has an inverse among the words. -/
theorem seedWord_injective (i : Nat) : Function.Injective (seedWord · i) := by
  intro y z same
  simp only [seedWord, UInt64.toUInt32_add, UInt64.toUInt32_mul, UInt32.toUInt32_toUInt64] at same
  refine shiftRight_injective 30 (by decide) ?_
  simp only
  generalize y ^^^ (y >>> 30) = y' at *
  generalize z ^^^ (z >>> 30) = z' at *
  have unit : (2520285293 : UInt32) * UInt64.toUInt32 1812433253 = 1 := by decide
  grind

/-- The shifted word has no top bit and the matrix has it: it tells which of the two was added. -/
theorem mixed_bit (y : UInt32) :
    ((y >>> 1) ^^^ mag01 (y &&& 1)).toBitVec.getLsbD 31 = decide (y &&& 1 ≠ 0) := by
  unfold mag01 MATRIX_A
  split <;> simp_all

private theorem toNat_and_one (y : UInt32) : (y &&& 1).toNat = y.toNat % 2 := by
  rw [UInt32.toNat_and, UInt32.toNat_one, Nat.and_one_is_mod]

private theorem mixed_injective :
    Function.Injective fun y : UInt32 => (y >>> 1) ^^^ mag01 (y &&& 1) := by
  intro y z same
  have bit := congrArg (fun word : UInt32 => word.toBitVec.getLsbD 31) same
  simp only [mixed_bit, decide_eq_decide, ne_eq, ← UInt32.toNat_inj, toNat_and_one, UInt32.toNat_zero] at bit
  have low : y &&& 1 = z &&& 1 := by
    rw [← UInt32.toNat_inj, toNat_and_one, toNat_and_one]
    omega
  simp only [low, UInt32.xor_left_inj] at same
  have high := congrArg UInt32.toNat same
  simp only [UInt32.toNat_shiftRight, UInt32.reduceToNat, Nat.reduceMod, Nat.shiftRight_one] at high
  rw [← UInt32.toNat_inj]
  omega

def upperPart (word : UInt32) : BitVec 32 := word.toBitVec &&& UPPER_MASK.toBitVec
def lowerPart (word : UInt32) : BitVec 32 := word.toBitVec &&& ~~~UPPER_MASK.toBitVec

private theorem lowerMask_eq : LOWER_MASK.toBitVec = ~~~UPPER_MASK.toBitVec := by decide

/-- A new word, next to the third word it was made from, gives back what it took of the
other two. -/
theorem twist_parts (u l u' l' later : UInt32) (same : twist u l later = twist u' l' later) :
    upperPart u = upperPart u' ∧ lowerPart l = lowerPart l' := by
  simp only [twist, UInt32.xor_assoc, UInt32.xor_right_inj] at same
  have joined := congrArg UInt32.toBitVec (mixed_injective same)
  simp only [UInt32.toBitVec_or, UInt32.toBitVec_and, lowerMask_eq] at joined
  exact joined_parts joined

/-- Taking `count` words. -/
def Random.draws (r : Random) (count : Nat) : List UInt32 :=
  r.calls (List.replicate count .genrandInt32)

private theorem draws_zero (r : Random) : r.draws 0 = [] := rfl

private theorem draws_succ (r : Random) (count : Nat) :
    r.draws (count + 1) = r.genrandInt32.1 :: r.genrandInt32.2.draws count := by
  rw [Random.draws, List.replicate_succ, Random.calls]
  rfl

private theorem draws_at (here : At (mersenne start) place r) (count : Nat) :
    r.draws count = (List.range count).map fun k => temper (mersenne start (place + k)) := by
  induction count generalizing r place with
  | zero => rfl
  | succ count ih =>
    obtain ⟨word, next⟩ := genrandInt32_at here
    rw [draws_succ, word, ih next, List.range_succ_eq_map, List.map_cons, List.map_map, Nat.add_zero]
    congr 1
    refine List.map_congr_left fun k _ => ?_
    rw [Function.comp_apply, Nat.add_assoc, Nat.add_comm 1 k]

/-- In whatever state, the words to come are terms in a row of one sequence. -/
theorem draws_sequence (r : Random) : ∃ start place, ∀ count,
    r.draws count = (List.range count).map fun k => temper (mersenne start (place + k)) := by
  by_cases unseeded : r.mti = N + 1
  · refine ⟨seeded 5489, N + 0, fun count => ?_⟩
    rw [← draws_at (initGenrand_at r 5489)]
    cases count with
    | zero => rw [draws_zero, draws_zero]
    | succ count => rw [draws_succ, draws_succ, genrandInt32_unseeded unseeded]
  · have seeded := r.mti_le
    refine ⟨r.mt, r.mti, draws_at ⟨by omega, 0, ?_, Nat.zero_add _⟩⟩
    intro i inside
    rw [Nat.zero_add, mersenne, stream_inside]

private theorem terms_of_draws
    (same : ((List.range N).map fun k => temper (mersenne start (place + k))) =
      (List.range N).map fun k => temper (mersenne start' (place' + k))) (i : Nat) :
    mersenne start (place + i) = mersenne start' (place' + i) := by
  refine stream_window (fun k inside => ?_) i
  exact temper_injective (List.map_inj_left.mp same k (List.mem_range.mpr inside))

/-- `N` words in a row tell all the words after them, whatever the two generators went
through before. -/
theorem words_tell_later_words (r s : Random) (same : r.draws N = s.draws N) (count : Nat) :
    r.draws count = s.draws count := by
  obtain ⟨start, place, ofr⟩ := draws_sequence r
  obtain ⟨start', place', ofs⟩ := draws_sequence s
  rw [ofr, ofs] at same
  rw [ofr, ofs]
  refine List.map_congr_left fun k _ => ?_
  rw [terms_of_draws same]

/-- A generator never seeded and one with the default seed, over different memory. -/
theorem unseeded_words_tell_later_words :
    (Random.new (Vector.replicate N 1)).draws N =
        ((Random.new (Vector.replicate N 2)).initGenrand 5489).draws N ∧
      ∀ count, (Random.new (Vector.replicate N 1)).draws count =
        ((Random.new (Vector.replicate N 2)).initGenrand 5489).draws count := by
  have same : (Random.new (Vector.replicate N 1)).draws N =
      ((Random.new (Vector.replicate N 2)).initGenrand 5489).draws N := by
    have first : Represents (Random.new (Vector.replicate N 1)) ⟨5489, 0⟩ := .inr ⟨rfl, rfl⟩
    have second : Represents ((Random.new (Vector.replicate N 2)).initGenrand 5489) ⟨5489, 0⟩ :=
      .inl (initGenrand_at _ 5489)
    rw [Random.draws, Random.draws, calls_represents _ first, calls_represents _ second]
  exact ⟨same, words_tell_later_words _ _ same⟩

private theorem seeded_tell (same : mersenne (seeded s) 1 = mersenne (seeded s') 1) : s = s' := by
  rw [mersenne, mersenne, stream_inside _ one_lt_N, stream_inside _ one_lt_N] at same
  simp only [seeded, Vector.getElem_ofFn, seedWords] at same
  exact seedWord_injective 1 same

/-- Seeds are told apart by the first `N` words: from those the recurrence goes back to the
second word of the seed, and that one gives the seed. -/
theorem words_tell_seed (r : Random) : Function.Injective fun s => (r.initGenrand s).draws N := by
  intro s s' same
  simp only [draws_at (initGenrand_at _ _)] at same
  have onward := terms_of_draws same
  have beyond (k : Nat) (later : N ≤ k) : mersenne (seeded s) k = mersenne (seeded s') k := by
    obtain ⟨i, rfl⟩ := Nat.exists_eq_add_of_le later
    exact onward i
  have whole (a b : UInt32) (upper : upperPart a = upperPart b) (lower : lowerPart a = lowerPart b) :
      a = b := UInt32.toBitVec_inj.mp (eq_of_parts upper lower)
  exact seeded_tell (stream_back upperPart lowerPart twist_parts whole one_lt_M beyond 1 Nat.one_pos)

end TcpCongestion.MersenneTwister
