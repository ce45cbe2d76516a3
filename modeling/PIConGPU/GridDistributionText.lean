import PIConGPU.ParserGridDistribution

/-!
# The text of a grid distribution

A distribution is written as its entries with commas in between, and reading this text gives back the entries.
-/
namespace PIConGPU

namespace ParserGridDistribution

/-- `b` or `b{n}`. -/
def renderEntry (short : Bool) (e : ℕ × ℕ) : List Char :=
  Nat.toDigits 10 e.1 ++ if short then [] else '{' :: (Nat.toDigits 10 e.2 ++ ['}'])

def render : List (Bool × ℕ × ℕ) → List Char
  | [] => []
  | [e] => renderEntry e.1 e.2
  | e :: es => renderEntry e.1 e.2 ++ ',' :: render es

@[simp] theorem render_cons_cons (e e' : Bool × ℕ × ℕ) (es : List (Bool × ℕ × ℕ)) :
    render (e :: e' :: es) = renderEntry e.1 e.2 ++ ',' :: render (e' :: es) := rfl

def EndsEntry : List Char → Prop
  | [] => True
  | c :: _ => c = ','

section Digits

variable {n : ℕ} {rest : List Char}

theorem isDigit_of_mem {c : Char} (h : c ∈ Nat.toDigits 10 n) : c.isDigit = true :=
  Nat.isDigit_of_mem_toDigits (by norm_num) le_rfl h

theorem ne_of_mem {c c' : Char} (h : c ∈ Nat.toDigits 10 n) (h' : c'.isDigit = false) : c ≠ c' := by
  rintro rfl
  exact Bool.false_ne_true (h'.symm.trans (isDigit_of_mem h))

theorem takeWhile_digits (h : ∀ c ∈ rest.head?, c.isDigit = false) :
    (Nat.toDigits 10 n ++ rest).takeWhile Char.isDigit = Nat.toDigits 10 n := by
  rw [List.takeWhile_append_of_pos fun c hc => isDigit_of_mem hc]
  cases rest with
  | nil => simp
  | cons c rest => simp [h c rfl]

theorem takeWhile_ne_digits {c : Char} (hc : c.isDigit = false) (rest : List Char) :
    (Nat.toDigits 10 n ++ rest).takeWhile (· ≠ c) = Nat.toDigits 10 n ++ rest.takeWhile (· ≠ c) :=
  List.takeWhile_append_of_pos fun _ hmem => decide_eq_true (ne_of_mem hmem hc)

theorem dropWhile_ne_digits {c : Char} (hc : c.isDigit = false) (rest : List Char) :
    (Nat.toDigits 10 n ++ rest).dropWhile (· ≠ c) = rest.dropWhile (· ≠ c) :=
  List.dropWhile_append_of_pos fun _ hmem => decide_eq_true (ne_of_mem hmem hc)

theorem lexicalCast_digits (hn : n ≤ 4294967295) : lexicalCast (Nat.toDigits 10 n) = some n := by
  have hvalue := (@Nat.ofDigitChars_eq_foldl 10 (Nat.toDigits 10 n) 0).symm.trans Nat.ofDigitChars_ten_toDigits
  have hall : (Nat.toDigits 10 n).all Char.isDigit = true := List.all_eq_true.mpr fun c hc => isDigit_of_mem hc
  unfold lexicalCast
  dsimp only
  rw [hvalue, if_pos ⟨Nat.toDigits_ne_nil, hall, hn⟩]

end Digits

section Tokens

variable {rest : List Char}

theorem takeGroups_endsEntry (h : EndsEntry rest) (fuel : ℕ) : takeGroups fuel rest = ([], rest) := by
  cases fuel with
  | zero => rfl
  | succ fuel =>
    cases rest with
    | nil => rfl
    | cons c rest =>
      obtain rfl : c = ',' := h
      rfl

theorem takeGroups_entry (h : EndsEntry rest) (fuel n : ℕ) :
    takeGroups (fuel + 1) ('{' :: (Nat.toDigits 10 n ++ ['}']) ++ rest) = ('{' :: (Nat.toDigits 10 n ++ ['}']), rest) := by
  have htake : (Nat.toDigits 10 n ++ '}' :: rest).takeWhile Char.isDigit = Nat.toDigits 10 n :=
    takeWhile_digits (by simp)
  obtain ⟨d, ds, hds⟩ := List.exists_cons_of_ne_nil (@Nat.toDigits_ne_nil n 10)
  simp only [List.cons_append, List.append_assoc, List.nil_append, takeGroups, htake, List.drop_left]
  rw [hds]
  simp only [takeGroups_endsEntry h, List.cons_append]

theorem takeWhile_entry (h : EndsEntry rest) (short : Bool) (e : ℕ × ℕ) :
    (renderEntry short e ++ rest).takeWhile Char.isDigit = Nat.toDigits 10 e.1 := by
  rw [renderEntry, List.append_assoc]
  refine takeWhile_digits ?_
  cases short with
  | false => simp
  | true =>
    cases rest with
    | nil => simp
    | cons c rest =>
      obtain rfl : c = ',' := h
      simp

theorem tokens_entry (h : EndsEntry rest) (fuel : ℕ) (short : Bool) (e : ℕ × ℕ) :
    tokens (fuel + 1) (renderEntry short e ++ rest) = renderEntry short e :: tokens fuel rest := by
  have htake := takeWhile_entry h short e
  obtain ⟨d, ds, hds⟩ := List.exists_cons_of_ne_nil (@Nat.toDigits_ne_nil e.1 10)
  have hdrop : (renderEntry short e ++ rest).dropWhile (fun c => !c.isDigit) = renderEntry short e ++ rest := by
    have hd : d.isDigit = true := isDigit_of_mem (hds ▸ List.mem_cons_self ..)
    simp [renderEntry, hds, hd]
  have hgroups : takeGroups (renderEntry short e ++ rest).length
      ((renderEntry short e ++ rest).drop (Nat.toDigits 10 e.1).length) =
      (if short then [] else '{' :: (Nat.toDigits 10 e.2 ++ ['}']), rest) := by
    rw [renderEntry, List.append_assoc, List.drop_left]
    cases short with
    | true => exact takeGroups_endsEntry h _
    | false =>
      obtain ⟨fuel, hfuel⟩ : ∃ fuel, (Nat.toDigits 10 e.1 ++ ((if false = true then [] else
          '{' :: (Nat.toDigits 10 e.2 ++ ['}'])) ++ rest)).length = fuel + 1 := ⟨_, by simp [hds]; rfl⟩
      rw [hfuel]
      exact takeGroups_entry h fuel e.2
  rw [tokens]
  simp only [hdrop, htake]
  rw [hds] at hgroups ⊢
  simp only [hgroups]
  rw [renderEntry, hds]

theorem tokens_comma (fuel : ℕ) (rest : List Char) : tokens (fuel + 1) (',' :: rest) = tokens (fuel + 1) rest := by
  have hcomma : (',' :: rest).dropWhile (fun c => !c.isDigit) = rest.dropWhile fun c => !c.isDigit :=
    List.dropWhile_cons_of_pos (by decide)
  simp only [tokens, hcomma]

theorem tokens_render (entries : List (Bool × ℕ × ℕ)) {fuel : ℕ} (hfuel : entries.length < fuel) :
    tokens fuel (render entries) = entries.map fun e => renderEntry e.1 e.2 := by
  induction entries generalizing fuel with
  | nil =>
    obtain ⟨fuel, rfl⟩ : ∃ k, fuel = k + 1 := ⟨fuel - 1, by simp at hfuel; omega⟩
    rfl
  | cons e entries ih =>
    obtain ⟨fuel, rfl⟩ : ∃ k, fuel = k + 1 := ⟨fuel - 1, by simp at hfuel; omega⟩
    rw [List.length_cons, Nat.add_lt_add_iff_right] at hfuel
    cases entries with
    | nil =>
      have hnil := @tokens_entry [] trivial fuel e.1 e.2
      rw [List.append_nil] at hnil
      rw [render, hnil, List.map_cons, List.map_nil]
      cases fuel <;> rfl
    | cons e' entries =>
      obtain ⟨fuel, rfl⟩ : ∃ k, fuel = k + 1 := ⟨fuel - 1, by simp at hfuel; omega⟩
      rw [render_cons_cons, @tokens_entry (',' :: render (e' :: entries)) rfl, tokens_comma, ih hfuel]
      rfl

end Tokens

section Entries

variable {short : Bool} {e : ℕ × ℕ}

theorem filter_digits {c : Char} (hc : c.isDigit = false) (n : ℕ) :
    (Nat.toDigits 10 n).filter (· ≠ c) = Nat.toDigits 10 n :=
  List.filter_eq_self.mpr fun _ hmem => decide_eq_true (ne_of_mem hmem hc)

theorem afterLast_of_notMem {c : Char} {s : List Char} (h : c ∉ s) : afterLast c s = s := by
  have htake : s.reverse.takeWhile (· ≠ c) = s.reverse :=
    List.takeWhile_eq_self_iff.mpr fun c' hmem => decide_eq_true fun he => h (he ▸ List.mem_reverse.mp hmem)
  rw [afterLast, htake, List.reverse_reverse]

theorem parseEntry_short (b : ℕ) (hb : b ≤ 4294967295) : parseEntry (Nat.toDigits 10 b) = some (b, 1) := by
  have hopen : '{' ∉ Nat.toDigits 10 b := fun h => ne_of_mem h rfl rfl
  have hmultiplier : multiplierText (Nat.toDigits 10 b) = Nat.toDigits 10 b := by
    rw [multiplierText, afterLast_of_notMem hopen, filter_digits rfl]
  have hbase : baseText (Nat.toDigits 10 b) = Nat.toDigits 10 b := by
    have hdrop := @dropWhile_ne_digits b '{' rfl []
    rw [List.append_nil] at hdrop
    rw [baseText, hdrop]
    rfl
  have hone : lexicalCast ['1'] = some 1 := rfl
  rw [parseEntry, hmultiplier, if_pos rfl, hbase, lexicalCast_digits hb, hone]
  rfl

theorem parseEntry_long (b n : ℕ) (hb : b ≤ 4294967295) (hn : n ≤ 4294967295) :
    parseEntry (Nat.toDigits 10 b ++ '{' :: (Nat.toDigits 10 n ++ ['}'])) = some (b, n) := by
  set pM := Nat.toDigits 10 b ++ '{' :: (Nat.toDigits 10 n ++ ['}']) with hpM
  have hmultiplier : multiplierText pM = Nat.toDigits 10 n := by
    have hrev : pM.reverse = '}' :: ((Nat.toDigits 10 n).reverse ++ '{' :: (Nat.toDigits 10 b).reverse) := by
      simp [hpM]
    have hlast : afterLast '{' pM = Nat.toDigits 10 n ++ ['}'] := by
      have hbrace : ∀ c ∈ (Nat.toDigits 10 n).reverse, decide (c ≠ '{') = true := fun c hmem =>
        decide_eq_true (ne_of_mem (List.mem_reverse.mp hmem) rfl)
      rw [afterLast, hrev, List.takeWhile_cons_of_pos (by decide), List.takeWhile_append_of_pos hbrace]
      simp
    rw [multiplierText, hlast, List.filter_append, filter_digits rfl]
    simp
  have hbase : baseText pM = Nat.toDigits 10 b := by
    have hdrop : pM.dropWhile (· ≠ '{') = '{' :: (Nat.toDigits 10 n ++ ['}']) := by
      rw [hpM, dropWhile_ne_digits rfl]
      rfl
    have htake : pM.takeWhile (· ≠ '{') = Nat.toDigits 10 b := by
      rw [hpM, takeWhile_ne_digits rfl, List.takeWhile_cons_of_neg (by simp), List.append_nil]
    have hafter : afterLast '}' ('{' :: (Nat.toDigits 10 n ++ ['}'])) = [] := by simp [afterLast]
    rw [baseText, hdrop, if_pos (by simp), htake, hafter, List.append_nil]
  have hne : Nat.toDigits 10 n ≠ pM := fun h => by
    have hmem : '{' ∈ Nat.toDigits 10 n := h ▸ by simp [hpM]
    exact ne_of_mem hmem rfl rfl
  rw [parseEntry, hmultiplier, if_neg hne, hbase, lexicalCast_digits hb, lexicalCast_digits hn]
  rfl

theorem parseEntry_renderEntry (hshort : short = true → e.2 = 1) (h1 : e.1 ≤ 4294967295) (h2 : e.2 ≤ 4294967295) :
    parseEntry (renderEntry short e) = some e := by
  obtain ⟨b, n⟩ := e
  cases short with
  | false => exact parseEntry_long b n h1 h2
  | true =>
    obtain rfl : n = 1 := hshort rfl
    rw [renderEntry, if_pos rfl, List.append_nil]
    exact parseEntry_short b h1

end Entries

theorem length_render (entries : List (Bool × ℕ × ℕ)) : entries.length ≤ (render entries).length := by
  have hentry : ∀ e : Bool × ℕ × ℕ, 1 ≤ (renderEntry e.1 e.2).length := fun e => by
    rw [renderEntry, List.length_append]
    exact Nat.le_add_right_of_le Nat.length_toDigits_pos
  induction entries with
  | nil => simp
  | cons e entries ih =>
    have he := hentry e
    cases entries with
    | nil => simpa [render] using he
    | cons e' entries =>
      rw [render_cons_cons, List.length_append, List.length_cons, List.length_cons (a := ',')]
      omega

/-- A text is read as it was written. -/
theorem parseString_render {entries : List (Bool × ℕ × ℕ)} (h : ∀ e ∈ entries,
    (e.1 = true → e.2.2 = 1) ∧ e.2.1 ≤ 4294967295 ∧ e.2.2 ≤ 4294967295) :
    parseString (render entries) = some (entries.map Prod.snd) := by
  rw [parseString, tokens_render entries (Nat.lt_succ_of_le (length_render entries))]
  induction entries with
  | nil => rfl
  | cons e entries ih =>
    obtain ⟨hshort, h1, h2⟩ := h e (List.mem_cons_self ..)
    rw [List.map_cons, List.mapM_cons, parseEntry_renderEntry hshort h1 h2,
      ih fun e he => h e (List.mem_cons_of_mem _ he)]
    rfl

section Devices

variable {es : List (ℕ × ℕ)}

theorem sum_expand (es : List (ℕ × ℕ)) : (expand es).sum = (es.map fun e => e.1 * e.2).sum := by
  induction es with
  | nil => rfl
  | cons e es ih =>
    rw [expand_cons, List.sum_append, List.sum_replicate, smul_eq_mul, Nat.mul_comm, ih, List.map_cons, List.sum_cons]

theorem base_le (hn : ∀ e ∈ es, 1 ≤ e.2) {e : ℕ × ℕ} (he : e ∈ es) : e.1 ≤ (es.map fun e => e.1 * e.2).sum :=
  (Nat.le_mul_of_pos_right _ (hn e he)).trans (List.le_sum_of_mem (List.mem_map.mpr ⟨e, he, rfl⟩))

theorem sum_take_expand (hcount : deviceCount es < 2^31) (p : ℕ) :
    ((expand es).take p).sum = ∑ q ∈ Finset.range p, (getLocalSize es q).getD 0 := by
  induction p with
  | zero => simp
  | succ p ih =>
    rw [Finset.sum_range_succ, ← ih, getLocalSize_eq ((walked_le _ _).trans (by omega)), List.take_add_one, List.sum_append]
    cases (expand es)[p]? <;> simp

/-- What the devices find in a distribution that was written as a text. -/
theorem distribution_spec {entries : List (Bool × ℕ × ℕ)} {total : ℕ} (hes : entries.map Prod.snd = es)
    (hn : ∀ e ∈ entries, 1 ≤ e.2.2 ∧ (e.1 = true → e.2.2 = 1)) (hcount : deviceCount es < 2^31)
    (htotal : (es.map fun e => e.1 * e.2).sum = total) (hcells : total < 2^31) :
    parseString (render entries) = some es ∧ ∀ p < deviceCount es,
      ∃ b, (expand es)[p]? = some b ∧ getLocalSize es p = some b ∧
        getOffset es p total = some (∑ q ∈ Finset.range p, (getLocalSize es q).getD 0) := by
  have hmem : ∀ e ∈ entries, e.2 ∈ es := fun e he => hes ▸ List.mem_map.mpr ⟨e, he, rfl⟩
  have hn' : ∀ e ∈ es, 1 ≤ e.2 := fun e he => by
    obtain ⟨e', he', rfl⟩ := List.mem_map.mp (hes ▸ he)
    exact (hn e' he').1
  have hparse : parseString (render entries) = some (entries.map Prod.snd) := parseString_render fun e he => by
    have hbase := base_le hn' (hmem e he)
    have hmultiplier : e.2.2 ≤ deviceCount es := List.le_sum_of_mem (List.mem_map.mpr ⟨e.2, hmem e he, rfl⟩)
    exact ⟨(hn e he).2, by omega, by omega⟩
  refine ⟨hes ▸ hparse, fun p hp => ?_⟩
  have hlen : p < (expand es).length := by rwa [length_expand]
  have hle : ((expand es).take p).sum ≤ total := by
    rw [← htotal, ← sum_expand]
    exact List.Sublist.sum_le_sum (List.take_sublist p _) fun _ _ => Nat.zero_le _
  refine ⟨(expand es)[p], List.getElem?_eq_getElem hlen, ?_, ?_⟩
  · rw [getLocalSize_eq ((walked_le _ _).trans (by omega)), List.getElem?_eq_getElem hlen]
  · have hfrom := getOffsetFrom_eq es (Nat.zero_le p) 0 ((zero_add _).trans_le ((walked_le _ _).trans (by omega)))
      (by omega)
    simp only [Nat.cast_zero, zero_sub, Nat.sub_zero, zero_add] at hfrom
    have hsum : sumTotal es = total := by
      have hcast : (es.map fun e => (e.1 * e.2 : ℤ)).sum = (total : ℤ) := by
        rw [← htotal, Nat.cast_list_sum, List.map_map]
        simp [Function.comp_def]
      rw [sumTotal, hcast, u32]
      omega
    rw [getOffset, hfrom, Option.bind_some, if_pos hsum, ← sum_take_expand hcount, i32_eq (by omega) (by omega), u32]
    congr 1
    omega

theorem distribution_seven : getOffset [(64, 1), (32, 2), (64, 1), (16, 3)] 4 240 = some 192 := by
  obtain ⟨-, h⟩ := @distribution_spec [(64, 1), (32, 2), (64, 1), (16, 3)]
    [(true, 64, 1), (false, 32, 2), (false, 64, 1), (false, 16, 3)] 240 rfl (by decide) (by decide) (by decide)
    (by decide)
  obtain ⟨b, -, -, ho⟩ := h 4 (by decide)
  exact ho.trans (congrArg some (by decide))

end Devices

end ParserGridDistribution

end PIConGPU
