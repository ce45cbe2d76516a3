import PIConGPU.FixedWidth

/-!
# The distribution of cells over devices

`ParserGridDistribution` reads a text such as `64,32{2},64` into pairs of a size and a
multiplier. A device finds its own entry by walking over the pairs with a signed 32-bit index.
-/
namespace PIConGPU

namespace ParserGridDistribution

/-- The repetitions of `\{[0-9]+\}` at the start of a text and what follows them. -/
def takeGroups : ℕ → List Char → List Char × List Char
  | 0, s => ([], s)
  | fuel + 1, s =>
    match s with
    | '{' :: t =>
      let ds := t.takeWhile Char.isDigit
      match ds, t.drop ds.length with
      | _ :: _, '}' :: rest =>
        let (gs, rest) := takeGroups fuel rest
        ('{' :: ds ++ '}' :: gs, rest)
      | _, _ => ([], s)
    | _ => ([], s)

/-- The matches of `[0-9]+(\{[0-9]+\})*` from left to right. -/
def tokens : ℕ → List Char → List (List Char)
  | 0, _ => []
  | fuel + 1, s =>
    let t := s.dropWhile fun c => !c.isDigit
    match t.takeWhile Char.isDigit with
    | [] => []
    | ds =>
      let (gs, rest) := takeGroups t.length (t.drop ds.length)
      (ds ++ gs) :: tokens fuel rest

/-- The text after the last occurrence of a character, the whole text without one. -/
def afterLast (c : Char) (s : List Char) : List Char := (s.reverse.takeWhile (· ≠ c)).reverse

/-- `regex_replace` with `(.*\{)|(\})`. -/
def multiplierText (pM : List Char) : List Char := (afterLast '{' pM).filter (· ≠ '}')

/-- `regex_replace` with `\{.*\}`. -/
def baseText (pM : List Char) : List Char :=
  let tail := pM.dropWhile (· ≠ '{')
  if '}' ∈ tail then pM.takeWhile (· ≠ '{') ++ afterLast '}' tail else pM

/-- `lexical_cast` of a text to an unsigned 32-bit value. -/
def lexicalCast (s : List Char) : Option ℕ :=
  let n := s.foldl (fun n c => 10 * n + (c.toNat - '0'.toNat)) 0
  if s ≠ [] ∧ s.all Char.isDigit = true ∧ n ≤ 4294967295 then some n else none

def parseEntry (pM : List Char) : Option (ℕ × ℕ) :=
  let multipl := if multiplierText pM = pM then ['1'] else multiplierText pM
  (lexicalCast (baseText pM)).bind fun b => (lexicalCast multipl).map fun n => (b, n)

def parseString (s : List Char) : Option (List (ℕ × ℕ)) := (tokens (s.length + 1) s).mapM parseEntry

/-- The walk of `getLocalSize`; `i` is the index of the last device before the remaining
entries. Walking over the end of the vector is undefined. -/
def getLocalSizeFrom (gpuPos : ℤ) : ℤ → List (ℕ × ℕ) → Option ℕ
  | _, [] => none
  | i, (b, n) :: rest =>
    let i := i32 (i + n)
    if i < gpuPos then getLocalSizeFrom gpuPos i rest else some b

def getLocalSize (parsedInput : List (ℕ × ℕ)) (gpuPos : ℤ) : Option ℕ :=
  getLocalSizeFrom gpuPos (-1) parsedInput

/-- The walk of `getOffset`, with the cells of the blocks before the remaining entries. -/
def getOffsetFrom (gpuPos : ℤ) : ℤ → ℤ → List (ℕ × ℕ) → Option ℤ
  | _, _, [] => none
  | sum, i, (b, n) :: rest =>
    let i := i32 (i + n)
    if i < gpuPos then getOffsetFrom gpuPos (i32 (sum + b * n)) i rest
    else some (i32 (sum + b * (gpuPos + n - i - 1)))

def sumTotal (parsedInput : List (ℕ × ℕ)) : ℕ :=
  u32 (parsedInput.map fun e => (e.1 * e.2 : ℤ)).sum

/-- `getOffset` with its assertion on the total number of cells. -/
def getOffset (parsedInput : List (ℕ × ℕ)) (gpuPos : ℤ) (maxCells : ℕ) : Option ℕ :=
  (getOffsetFrom gpuPos 0 (-1) parsedInput).bind fun sum =>
    if sumTotal parsedInput = maxCells then some (u32 sum) else none

def expand (parsedInput : List (ℕ × ℕ)) : List ℕ :=
  parsedInput.flatMap fun e => List.replicate e.2 e.1

def deviceCount (parsedInput : List (ℕ × ℕ)) : ℕ := (parsedInput.map Prod.snd).sum

/-- The devices of the entries that the walks of the first devices reach. -/
def walked : ℕ → List (ℕ × ℕ) → ℕ
  | _, [] => 0
  | g, e :: es => if g ≤ e.2 then e.2 else e.2 + walked (g - e.2) es

theorem walked_mono (es : List (ℕ × ℕ)) : Monotone fun g => walked g es := by
  induction es with
  | nil => exact fun _ _ _ => le_rfl
  | cons e es ih =>
    intro g g' h
    have hrest : walked (g - e.2) es ≤ walked (g' - e.2) es := ih (Nat.sub_le_sub_right h e.2)
    simp only [walked]
    split_ifs <;> omega

/-- The last entry of `40,0{4294967295}` is not reached by one device. -/
example : walked 1 [(40, 1), (0, 4294967295)] = 1 := rfl

theorem length_expand (es : List (ℕ × ℕ)) : (expand es).length = deviceCount es := by
  simp [expand, deviceCount, List.length_flatMap]

@[simp] theorem expand_cons (e : ℕ × ℕ) (es : List (ℕ × ℕ)) :
    expand (e :: es) = List.replicate e.2 e.1 ++ expand es := rfl

@[simp] theorem deviceCount_nil : deviceCount [] = 0 := rfl

@[simp] theorem deviceCount_cons (e : ℕ × ℕ) (es : List (ℕ × ℕ)) :
    deviceCount (e :: es) = e.2 + deviceCount es := by
  simp [deviceCount]

theorem walked_le (g : ℕ) (es : List (ℕ × ℕ)) : walked g es ≤ deviceCount es := by
  induction es generalizing g with
  | nil => exact Nat.zero_le _
  | cons e es ih =>
    have := ih (g - e.2)
    rw [walked, deviceCount_cons]
    split_ifs <;> omega

theorem lexicalCast_lt {s : List Char} {n : ℕ} (h : lexicalCast s = some n) : n < 4294967296 := by
  unfold lexicalCast at h
  simp only [Option.ite_none_right_eq_some, Option.some.injEq] at h
  omega

theorem parseEntry_lt {pM : List Char} {e : ℕ × ℕ} (h : parseEntry pM = some e) : e.1 < 4294967296 := by
  obtain ⟨b, hb, hn⟩ := Option.bind_eq_some_iff.mp h
  obtain ⟨n, -, rfl⟩ := Option.map_eq_some_iff.mp hn
  exact lexicalCast_lt hb

theorem parseString_lt {s : List Char} {es : List (ℕ × ℕ)} (h : parseString s = some es) :
    ∀ e ∈ es, e.1 < 4294967296 := by
  unfold parseString at h
  generalize tokens (s.length + 1) s = ts at h
  induction ts generalizing es with
  | nil =>
    obtain rfl : [] = es := by simpa using h
    simp
  | cons pM ts ih =>
    rw [List.mapM_cons] at h
    obtain ⟨e, he, h⟩ := Option.bind_eq_some_iff.mp h
    obtain ⟨es', hes', h⟩ := Option.bind_eq_some_iff.mp h
    obtain rfl : e :: es' = es := by simpa using h
    intro e' he'
    rcases List.mem_cons.mp he' with rfl | he'
    · exact parseEntry_lt he
    · exact ih hes' e' he'

/-- Where the index does not wrap, the walk finds the entry of the device. -/
theorem getLocalSizeFrom_eq (es : List (ℕ × ℕ)) {c p : ℕ} (hc : c ≤ p)
    (hfit : c + walked (p + 1 - c) es ≤ 2147483648) :
    getLocalSizeFrom p ((c : ℤ) - 1) es = (expand es)[p - c]? := by
  induction es generalizing c with
  | nil => simp [getLocalSizeFrom, expand]
  | cons e es ih =>
    obtain ⟨b, n⟩ := e
    have hn : c + n ≤ 2147483648 := by
      rw [walked] at hfit
      split_ifs at hfit <;> omega
    have hi : i32 ((c : ℤ) - 1 + n) = ((c + n : ℕ) : ℤ) - 1 := by
      rw [i32_eq (by omega) (by omega)]
      push_cast
      ring
    simp only [getLocalSizeFrom, hi, expand_cons]
    split_ifs with h
    · have hrest : c + n + walked (p + 1 - (c + n)) es ≤ 2147483648 := by
        rw [walked, if_neg (by simp only; omega)] at hfit
        rwa [add_assoc, ← Nat.sub_sub]
      rw [ih (by omega) hrest, List.getElem?_append_right (by simp; omega)]
      simp only [List.length_replicate]
      congr 1
      omega
    · rw [List.getElem?_append_left (by simp; omega), List.getElem?_replicate, if_pos (by omega)]

/-- Where the index does not wrap, the walk adds up the cells of the devices before. -/
theorem getOffsetFrom_eq (es : List (ℕ × ℕ)) {c p : ℕ} (hc : c ≤ p) (sum : ℤ)
    (hfit : c + walked (p + 1 - c) es ≤ 2147483648) (hp : p < c + deviceCount es) :
    getOffsetFrom p sum ((c : ℤ) - 1) es =
      some (i32 (sum + (((expand es).take (p - c)).sum : ℕ))) := by
  induction es generalizing c sum with
  | nil => simp [deviceCount] at hp; omega
  | cons e es ih =>
    obtain ⟨b, n⟩ := e
    simp only [deviceCount_cons] at hp
    have hn : c + n ≤ 2147483648 := by
      rw [walked] at hfit
      split_ifs at hfit <;> omega
    have hi : i32 ((c : ℤ) - 1 + n) = ((c + n : ℕ) : ℤ) - 1 := by
      rw [i32_eq (by omega) (by omega)]
      push_cast
      ring
    simp only [getOffsetFrom, hi, expand_cons]
    split_ifs with h
    · have hsplit : p - c = n + (p - (c + n)) := by omega
      have hrest : c + n + walked (p + 1 - (c + n)) es ≤ 2147483648 := by
        rw [walked, if_neg (by simp only; omega)] at hfit
        rwa [add_assoc, ← Nat.sub_sub]
      rw [ih (by omega) _ hrest (by omega), hsplit, List.take_append,
        List.take_of_length_le (show (List.replicate n b).length ≤ _ by simp), List.sum_append,
        List.length_replicate, Nat.add_sub_cancel_left, List.sum_replicate, smul_eq_mul]
      congr 1
      apply i32_congr
      rw [Int.add_emod, i32_emod, ← Int.add_emod]
      push_cast
      congr 1
      ring
    · rw [List.take_append_of_le_length (by simp; omega), List.take_replicate, List.sum_replicate,
        smul_eq_mul, min_eq_left (by omega)]
      congr 2
      push_cast [Nat.cast_sub hc]
      ring

theorem getLocalSize_eq {es : List (ℕ × ℕ)} {p : ℕ} (hfit : walked (p + 1) es ≤ 2147483648) :
    getLocalSize es p = (expand es)[p]? := by
  have h := getLocalSizeFrom_eq es (Nat.zero_le p) (by simpa using hfit)
  simpa [getLocalSize] using h

theorem getOffset_eq_some {es : List (ℕ × ℕ)} {p : ℤ} {maxCells o : ℕ} (h : getOffset es p maxCells = some o) :
    ∃ sum, getOffsetFrom p 0 (-1) es = some sum ∧ i32 o = i32 sum := by
  obtain ⟨sum, hsum, h⟩ := Option.bind_eq_some_iff.mp h
  split_ifs at h
  obtain rfl := Option.some.inj h
  exact ⟨sum, hsum, i32_u32 sum⟩

theorem getOffset_eq {es : List (ℕ × ℕ)} {p maxCells o : ℕ} (hfit : walked (p + 1) es ≤ 2147483648)
    (hp : p < deviceCount es) (h : getOffset es p maxCells = some o) :
    i32 o = i32 (((expand es).take p).sum : ℕ) := by
  obtain ⟨sum, hsum, hi⟩ := getOffset_eq_some h
  have hfrom := getOffsetFrom_eq es (Nat.zero_le p) 0 (by simpa using hfit) (by omega)
  simp only [Nat.cast_zero, zero_sub, Nat.sub_zero, zero_add] at hfrom
  rw [hfrom] at hsum
  rw [hi, ← Option.some.inj hsum]
  exact i32_congr (i32_emod _)

section Shares

def cellCount (parsedInput : List (ℕ × ℕ)) : ℕ := (parsedInput.map fun e => e.1 * e.2).sum

/-- The first entry whose last device, as a signed 32-bit number, does not lie before a device. -/
def entryIndex (parsedInput : List (ℕ × ℕ)) (p : ℤ) : ℕ :=
  (List.range parsedInput.length).findIdx fun j => p ≤ i32 (deviceCount (parsedInput.take (j + 1)) - 1)

def shareSize (parsedInput : List (ℕ × ℕ)) (p : ℤ) : ℤ := i32 (parsedInput.getD (entryIndex parsedInput p) (0, 0)).1

/-- All cells of the entries before, and those of the devices that share the entry. -/
def shareStart (parsedInput : List (ℕ × ℕ)) (p : ℤ) : ℤ :=
  let before := parsedInput.take (entryIndex parsedInput p)
  i32 (cellCount before + (parsedInput.getD (entryIndex parsedInput p) (0, 0)).1 * (p - deviceCount before))

/-- Apart from the ends of the grid, the shares of the first devices start where shares end. -/
def SharesMeet (parsedInput : List (ℕ × ℕ)) (g : ℕ) (globalSize : ℤ) : Prop :=
  globalSize ::ₘ Finset.univ.val.map (fun p : Fin g => shareStart parsedInput (p : ℕ)) =
    0 ::ₘ Finset.univ.val.map fun p : Fin g => shareStart parsedInput (p : ℕ) + shareSize parsedInput (p : ℕ)

instance (parsedInput : List (ℕ × ℕ)) (g : ℕ) (globalSize : ℤ) : Decidable (SharesMeet parsedInput g globalSize) :=
  inferInstanceAs (Decidable (_ = _))

variable {es : List (ℕ × ℕ)} {p : ℤ}

/-- Both walks end at the same entry, also when the index wraps. -/
theorem walk_spec {c size : ℕ} (h : getLocalSizeFrom p (i32 ((c : ℤ) - 1)) es = some size) :
    ∃ (j : ℕ) (hj : j < es.length), es[j].1 = size ∧
      (∀ k < j, i32 (((c + deviceCount (es.take (k + 1)) : ℕ) : ℤ) - 1) < p) ∧
      p ≤ i32 (((c + deviceCount (es.take (j + 1)) : ℕ) : ℤ) - 1) ∧
      ∀ sum : ℤ, getOffsetFrom p (i32 sum) (i32 ((c : ℤ) - 1)) es =
        some (i32 (sum + cellCount (es.take j) + size * (p - c - deviceCount (es.take j)))) := by
  induction es generalizing c with
  | nil => cases h
  | cons e es ih =>
    obtain ⟨b, n⟩ := e
    have hi : i32 (i32 ((c : ℤ) - 1) + n) = i32 (((c + n : ℕ) : ℤ) - 1) := by
      rw [i32_add]
      congr 1
      push_cast
      ring
    simp only [getLocalSizeFrom, hi] at h
    simp only [getOffsetFrom, hi]
    split_ifs at h ⊢ with hlt
    · obtain ⟨j, hj, hsize, hbefore, hat, hoffset⟩ := ih h
      refine ⟨j + 1, by simpa using hj, by simpa using hsize, fun k hk => ?_, ?_, fun sum => ?_⟩
      · cases k with
        | zero => simpa using hlt
        | succ k => simpa [add_assoc] using hbefore k (by omega)
      · simpa [add_assoc] using hat
      · rw [i32_add, hoffset]
        congr 2
        simp only [cellCount, List.take_succ_cons, List.map_cons, List.sum_cons, deviceCount_cons]
        push_cast
        ring
    · obtain rfl := Option.some.inj h
      refine ⟨0, by simp, rfl, by simp, by simpa using not_lt.mp hlt, fun sum => ?_⟩
      congr 1
      apply i32_congr
      have hmod : i32 (((c + n : ℕ) : ℤ) - 1) ≡ ((c + n : ℕ) : ℤ) - 1 [ZMOD 4294967296] := i32_emod _
      have hsum : i32 sum ≡ sum [ZMOD 4294967296] := i32_emod _
      have hend := hsum.add ((((Int.ModEq.refl (p + n)).sub hmod).sub (Int.ModEq.refl 1)).mul_left b)
      have heq : sum + b * (p + n - (((c + n : ℕ) : ℤ) - 1) - 1) = sum + b * (p - c) := by
        push_cast
        ring
      rw [heq] at hend
      simpa [cellCount, Int.ModEq] using hend

/-- A device that finds an entry gets the share that can be read off the pairs. -/
theorem share_eq {size : ℕ} (h : getLocalSize es p = some size) :
    i32 size = shareSize es p ∧ ∀ {o maxCells : ℕ}, getOffset es p maxCells = some o → i32 o = shareStart es p := by
  have hstart : (-1 : ℤ) = i32 (((0 : ℕ) : ℤ) - 1) := by decide
  rw [getLocalSize, hstart] at h
  obtain ⟨j, hj, hsize, hbefore, hat, hoffset⟩ := walk_spec h
  simp only [zero_add] at hbefore hat
  have hindex : entryIndex es p = j := by
    rw [entryIndex, List.findIdx_eq (by simpa using hj)]
    simpa using ⟨hat, hbefore⟩
  have hentry : es.getD j (0, 0) = es[j] := List.getD_eq_getElem _ _ hj
  refine ⟨by rw [shareSize, hindex, hentry, hsize], fun {o maxCells} ho => ?_⟩
  obtain ⟨sum, hsum, hi⟩ := getOffset_eq_some ho
  have h0 : getOffsetFrom p 0 (-1) es = _ := hstart ▸ hoffset 0
  obtain rfl := Option.some.inj (hsum.symm.trans h0)
  rw [hi, shareStart, hindex, hentry, hsize]
  simp only [Nat.cast_zero, zero_add, sub_zero]
  exact i32_congr (i32_emod _)

/-- The walk over `8{4294967295},8,24` wraps, and the only device still gets the cells from 0 to 23. -/
example : SharesMeet [(8, 4294967295), (8, 1), (24, 1)] 1 24 := by decide

end Shares

end ParserGridDistribution

end PIConGPU
