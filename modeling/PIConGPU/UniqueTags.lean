import PIConGPU.RegisteredTags

/-!
# Uniqueness of communication tags

A process constructs grid buffers and adds exchanges to them. Only the lowest direction of the first
call on a buffer is registered, so that another buffer which uses the same communication tag is
noticed only if its own lowest direction is a registered one. Whether that is so can be read off the calls.
-/
namespace PIConGPU

/-- The registered tags and the grid buffers of a process, which may differ in their dimension. -/
structure Process where
  tags : UniquTag
  buffers : List ((D : ℕ) × GridBuffer D)

namespace Process

open GridBuffer

inductive Call
  | construct (D : ℕ) (gridLayout : GridLayout D)
  | add (i : ℕ) (receive : Mask) (communicationTag : ℕ) (place : Placement)

def exec (s : Process) : Call → Except String Process
  | .construct D gridLayout => .ok { s with buffers := s.buffers ++ [⟨D, .init gridLayout⟩] }
  | .add i receive communicationTag place =>
    match s.buffers[i]? with
    | none => .error "no such buffer"
    | some b => (b.2.add s.tags receive communicationTag place).map fun st =>
      ⟨st.1, s.buffers.set i ⟨b.1, st.2⟩⟩

def Separate (s : Process) : Prop :=
  ∀ (i j : ℕ) (b b' : (D : ℕ) × GridBuffer D), i ≠ j → s.buffers[i]? = some b → s.buffers[j]? = some b' →
    ∀ t, b.2.Uses t → ¬ b'.2.Uses t

/-- A new exchange of the call would have a tag of another buffer. -/
def Collides (s : Process) : Call → Prop
  | .construct .. => False
  | .add i receive communicationTag place => ∃ b, s.buffers[i]? = some b ∧
    ∃ ex ∈ directions b.1 receive place, ∃ j b', j ≠ i ∧ s.buffers[j]? = some b' ∧
      b'.2.Uses (uniqCommunicationTag communicationTag ex)

/-- What the calls ask for: the dimension of a buffer, and the communication tags and directions of its exchanges. -/
structure Declaration where
  dim : ℕ
  exchanges : List (ℕ × ℕ)

def Declaration.add (d : Declaration) (receive : Mask) (communicationTag : ℕ) (place : Placement) : Declaration where
  dim := d.dim
  exchanges := d.exchanges ++ (directions d.dim receive place).map (Prod.mk communicationTag)

def declare (l : List Declaration) : Call → List Declaration
  | .construct D _ => l ++ [⟨D, []⟩]
  | .add i receive communicationTag place => l.modify i fun d => d.add receive communicationTag place

/-- The same direction, and the same communication tag in the 27 bits that are left of it. -/
def Agree (x y : ℕ × ℕ) : Prop := x.1 % 2^27 = y.1 % 2^27 ∧ x.2 = y.2

/-- No exchange agrees with one of another buffer. -/
def Apart (l : List Declaration) : Prop :=
  ∀ (i j : ℕ) (d d' : Declaration), i ≠ j → l[i]? = some d → l[j]? = some d' →
    ∀ x ∈ d.exchanges, ∀ y ∈ d'.exchanges, ¬ Agree x y

/-- The call asks for an exchange that agrees with one of another buffer. -/
def Shares (l : List Declaration) : Call → Prop
  | .construct .. => False
  | .add i receive communicationTag place => ∃ d, l[i]? = some d ∧ ∃ ex ∈ directions d.dim receive place,
    ∃ (j : ℕ) (d' : Declaration), j ≠ i ∧ l[j]? = some d' ∧ ∃ x ∈ d'.exchanges, Agree (communicationTag, ex) x

/-- A call that shares an exchange has another communication tag than the ones before on its buffer, or repeats one
of their directions, or is the first one there and its lowest direction is also the lowest one of a first call. -/
def Noticed (l : List Declaration) : Call → Prop
  | .construct .. => True
  | .add i receive communicationTag place => Shares l (.add i receive communicationTag place) →
    ∀ d, l[i]? = some d → (∃ x ∈ d.exchanges, x.1 ≠ communicationTag) ∨
      (d.exchanges = [] ∧ ∃ ex, (directions d.dim receive place).head? = some ex ∧
        ∃ (j : ℕ) (d' : Declaration), l[j]? = some d' ∧
          ∃ x, d'.exchanges.head? = some x ∧ Agree (communicationTag, ex) x) ∨
      ∃ ex ∈ directions d.dim receive place, ∃ x ∈ d.exchanges, x.2 = ex

def AllNoticed : List Declaration → List Call → Prop
  | _, [] => True
  | l, call :: calls => Noticed l call ∧ AllNoticed (declare l call) calls

section Declarations

variable {l : List Declaration} {i j : ℕ} {receive : Mask} {communicationTag : ℕ} {place : Placement}

theorem getElem?_declare_self {d : Declaration} (hd : l[i]? = some d) :
    (declare l (.add i receive communicationTag place))[i]? = some (d.add receive communicationTag place) := by
  simp [declare, hd]

theorem getElem?_declare_ne (h : j ≠ i) : (declare l (.add i receive communicationTag place))[j]? = l[j]? := by
  simp [declare, h.symm]

theorem getElem?_construct {D : ℕ} {layout : GridLayout D} {d : Declaration} :
    (declare l (.construct D layout))[j]? = some d ↔ l[j]? = some d ∨ j = l.length ∧ d = ⟨D, []⟩ := by
  rw [declare, List.getElem?_append]
  split_ifs with hj
  · simp [hj.ne]
  · rw [List.getElem?_eq_none (not_lt.mp hj), List.getElem?_singleton]
    simp only [reduceCtorEq, false_or]
    split_ifs with h0
    · simp [show j = l.length by omega, eq_comm]
    · simp [show j ≠ l.length by omega]

theorem mem_declare {d' : Declaration} (h : (declare l (.add i receive communicationTag place))[j]? = some d')
    (x : ℕ × ℕ) : x ∈ d'.exchanges ↔ ∃ d, l[j]? = some d ∧
      (x ∈ d.exchanges ∨ j = i ∧ ∃ ex ∈ directions d.dim receive place, x = (communicationTag, ex)) := by
  by_cases hji : j = i
  · subst hji
    cases hd : l[j]? with
    | none => simp [declare, hd] at h
    | some d =>
      obtain rfl := Option.some.inj ((getElem?_declare_self hd).symm.trans h)
      simp [Declaration.add, eq_comm]
  · rw [getElem?_declare_ne hji] at h
    simp [h, hji]

theorem exists_declare {d : Declaration} (hd : l[j]? = some d) :
    ∃ d', (declare l (.add i receive communicationTag place))[j]? = some d' := by
  by_cases hji : j = i
  · subst hji
    exact ⟨_, getElem?_declare_self hd⟩
  · exact ⟨d, by rwa [getElem?_declare_ne hji]⟩

/-- The exchanges stay apart exactly if the call does not share one. -/
theorem apart_declare (call : Call) : Apart (declare l call) ↔ Apart l ∧ ¬ Shares l call := by
  cases call with
  | construct D layout =>
    refine ⟨fun h => ⟨fun i j d d' hij hd hd' => ?_, id⟩, fun h i j d d' hij hd hd' x hx y hy => ?_⟩
    · exact h i j d d' hij (getElem?_construct.mpr (.inl hd)) (getElem?_construct.mpr (.inl hd'))
    · rcases getElem?_construct.mp hd with hd | ⟨-, rfl⟩
      · rcases getElem?_construct.mp hd' with hd' | ⟨-, rfl⟩
        · exact h.1 i j d d' hij hd hd' x hx y hy
        · cases hy
      · cases hx
  | add i receive communicationTag place =>
    constructor
    · refine fun h => ⟨fun j k d d' hjk hd hd' x hx y hy => ?_, ?_⟩
      · obtain ⟨e, he⟩ := exists_declare hd
        obtain ⟨e', he'⟩ := exists_declare hd'
        exact h j k e e' hjk he he' x ((mem_declare he x).mpr ⟨d, hd, .inl hx⟩) y
          ((mem_declare he' y).mpr ⟨d', hd', .inl hy⟩)
      · rintro ⟨d, hd, ex, hex, j, d', hji, hd', y, hy, hagree⟩
        obtain ⟨e, he⟩ := exists_declare hd
        obtain ⟨e', he'⟩ := exists_declare hd'
        exact h i j e e' hji.symm he he' _ ((mem_declare he _).mpr ⟨d, hd, .inr ⟨rfl, ex, hex, rfl⟩⟩) y
          ((mem_declare he' y).mpr ⟨d', hd', .inl hy⟩) hagree
    · rintro ⟨h, hshares⟩ j k e e' hjk he he' x hx y hy hagree
      obtain ⟨d, hd, hx | ⟨rfl, ex, hex, rfl⟩⟩ := (mem_declare he x).mp hx
      · obtain ⟨d', hd', hy | ⟨rfl, ex, hex, rfl⟩⟩ := (mem_declare he' y).mp hy
        · exact h j k d d' hjk hd hd' x hx y hy hagree
        · exact hshares ⟨d', hd', ex, hex, j, d, hjk, hd, x, hx, hagree.1.symm, hagree.2.symm⟩
      · obtain ⟨d', hd', hy | ⟨rfl, -⟩⟩ := (mem_declare he' y).mp hy
        · exact hshares ⟨d, hd, ex, hex, k, d', hjk.symm, hd', y, hy, hagree⟩
        · exact hjk rfl

theorem not_shares (h : ∀ d ∈ l, ∀ x ∈ d.exchanges, x.1 % 2^27 ≠ communicationTag % 2^27) :
    ¬ Shares l (.add i receive communicationTag place) := by
  rintro ⟨-, -, ex, -, j, d', -, hd', x, hx, hagree⟩
  exact h d' (List.mem_iff_getElem?.mpr ⟨j, hd'⟩) x hx hagree.1.symm

end Declarations

/-- The margins of the call fit into the guard. -/
def Fits (s : Process) : Call → Prop
  | .construct .. => True
  | .add i _ _ place => ∀ b, s.buffers[i]? = some b → place.Fits b.2.gridLayout

theorem exec_add_ok {s s' : Process} {i communicationTag : ℕ} {receive : Mask} {place : Placement}
    (h : exec s (.add i receive communicationTag place) = .ok s') :
    ∃ b st, s.buffers[i]? = some b ∧ b.2.add s.tags receive communicationTag place = .ok st ∧
      s' = ⟨st.1, s.buffers.set i ⟨b.1, st.2⟩⟩ := by
  rw [exec] at h
  cases hb : s.buffers[i]? with
  | none => simp [hb] at h
  | some b =>
    rw [hb] at h
    cases hadd : b.2.add s.tags receive communicationTag place with
    | error e => simp [hadd, Except.map] at h
    | ok st => exact ⟨b, st, rfl, hadd, by simpa [hadd, Except.map, eq_comm] using h⟩

section Tracking

structure Describes (d : Declaration) (b : (D : ℕ) × GridBuffer D) : Prop where
  dim : d.dim = b.1
  holds : Holds d.exchanges b.2
  lastUsed : ∀ x ∈ d.exchanges, x.1 = b.2.lastUsedCommunicationTag

theorem Describes.directions_eq {d : Declaration} {b : (D : ℕ) × GridBuffer D} (h : Describes d b) {receive : Mask}
    {place : Placement} : directions d.dim receive place = directions b.1 receive place := by
  rw [h.dim]

/-- The registered tags are those of the first exchange of each buffer. -/
structure Tracks (l : List Declaration) (s : Process) : Prop where
  length : l.length = s.buffers.length
  describes : ∀ (i : ℕ) d b, l[i]? = some d → s.buffers[i]? = some b → Describes d b
  tags : ∀ t, t ∈ s.tags ↔ ∃ (j : ℕ) (d : Declaration), l[j]? = some d ∧
    ∃ x, d.exchanges.head? = some x ∧ t = uniqCommunicationTag x.1 x.2

theorem Tracks.start : Tracks [] ⟨∅, []⟩ := ⟨rfl, by simp, by simp⟩

variable {l : List Declaration} {s s' : Process} (h : Tracks l s)
include h

theorem Tracks.exists_buffer {i : ℕ} {d : Declaration} (hd : l[i]? = some d) :
    ∃ b, s.buffers[i]? = some b ∧ Describes d b := by
  obtain ⟨hi, -⟩ := List.getElem?_eq_some_iff.mp hd
  have hi' : i < s.buffers.length := h.length ▸ hi
  exact ⟨_, List.getElem?_eq_getElem hi', h.describes i d _ hd (List.getElem?_eq_getElem hi')⟩

theorem Tracks.exists_declaration {i : ℕ} {b : (D : ℕ) × GridBuffer D} (hb : s.buffers[i]? = some b) :
    ∃ d, l[i]? = some d ∧ Describes d b := by
  obtain ⟨hi, -⟩ := List.getElem?_eq_some_iff.mp hb
  have hi' : i < l.length := h.length.symm ▸ hi
  exact ⟨_, List.getElem?_eq_getElem hi', h.describes i _ b (List.getElem?_eq_getElem hi') hb⟩

theorem Tracks.uniq_mem_tags {communicationTag ex : ℕ} (hex : ex < 32) :
    uniqCommunicationTag communicationTag ex ∈ s.tags ↔ ∃ (j : ℕ) (d : Declaration), l[j]? = some d ∧
      ∃ x, d.exchanges.head? = some x ∧ Agree (communicationTag, ex) x := by
  rw [h.tags]
  refine exists_congr fun j => exists_congr fun d => and_congr_right fun hd => exists_congr fun x =>
    and_congr_right fun hx => ?_
  obtain ⟨b, -, hdesc⟩ := h.exists_buffer hd
  exact uniqCommunicationTag_eq_iff hex (hdesc.holds.direction_lt x (List.mem_of_mem_head? hx))

/-- The reasons to throw can be read off the calls. -/
theorem Tracks.rejects_iff {d : Declaration} {b : (D : ℕ) × GridBuffer D} (hdesc : Describes d b)
    {communicationTag : ℕ} {receive : Mask} {place : Placement} :
    Rejects s.tags b.2 communicationTag (directions d.dim receive place) ↔
      (∃ x ∈ d.exchanges, x.1 ≠ communicationTag) ∨
      (d.exchanges = [] ∧ ∃ ex, (directions d.dim receive place).head? = some ex ∧
        ∃ (j : ℕ) (d' : Declaration), l[j]? = some d' ∧
          ∃ x, d'.exchanges.head? = some x ∧ Agree (communicationTag, ex) x) ∨
      ∃ ex ∈ directions d.dim receive place, ∃ x ∈ d.exchanges, x.2 = ex := by
  have hnone : b.2.hasOneExchange = false ↔ d.exchanges = [] := by
    rw [← Bool.not_eq_true, hdesc.holds.hasOneExchange, not_not]
  refine or_congr ⟨fun ⟨hone, hne⟩ => ?_, fun ⟨x, hx, hne⟩ => ?_⟩ (or_congr (and_congr hnone ?_) ?_)
  · obtain ⟨x, hx⟩ := List.exists_mem_of_ne_nil _ (hdesc.holds.hasOneExchange.mp hone)
    exact ⟨x, hx, fun he => hne (he.symm.trans (hdesc.lastUsed x hx))⟩
  · refine ⟨hdesc.holds.hasOneExchange.mpr (List.ne_nil_of_mem hx), fun he => hne ?_⟩
    rw [hdesc.lastUsed x hx, he]
  · refine exists_congr fun ex => ?_
    rw [List.head?_eq_some_iff, ← exists_and_right]
    refine exists_congr fun ds => and_congr_right fun hd => h.uniq_mem_tags ?_
    exact directions_lt (hd ▸ List.mem_cons_self)
  · exact exists_congr fun ex => and_congr_right fun _ => hdesc.holds.sendExchanges_ne_none ex

theorem Tracks.collides_iff (call : Call) : Collides s call ↔ Shares l call := by
  cases call with
  | construct => exact Iff.rfl
  | add i receive communicationTag place =>
    constructor
    · rintro ⟨b, hb, ex, hex, j, b', hji, hb', hu⟩
      obtain ⟨d, hd, hdesc⟩ := h.exists_declaration hb
      obtain ⟨d', hd', hdesc'⟩ := h.exists_declaration hb'
      obtain ⟨x, hx, htag⟩ := (hdesc'.holds.uses_iff _).mp hu
      exact ⟨d, hd, ex, hdesc.dim ▸ hex, j, d', hji, hd', x, hx,
        (uniqCommunicationTag_eq_iff (directions_lt hex) (hdesc'.holds.direction_lt x hx)).mp htag⟩
    · rintro ⟨d, hd, ex, hex, j, d', hji, hd', x, hx, hagree⟩
      obtain ⟨b, hb, hdesc⟩ := h.exists_buffer hd
      obtain ⟨b', hb', hdesc'⟩ := h.exists_buffer hd'
      refine ⟨b, hb, ex, hdesc.dim ▸ hex, j, b', hji, hb', (hdesc'.holds.uses_iff _).mpr ⟨x, hx, ?_⟩⟩
      exact (uniqCommunicationTag_eq_iff (directions_lt hex) (hdesc'.holds.direction_lt x hx)).mpr hagree

/-- A call that is noticed throws. -/
theorem Tracks.throws_of_noticed {call : Call} (hnoticed : Noticed l call) (hshares : Shares l call) :
    ∃ e, Process.exec s call = .error e := by
  cases hexec : Process.exec s call with
  | error e => exact ⟨e, rfl⟩
  | ok s' =>
    exfalso
    cases call with
    | construct => exact hshares
    | add i receive communicationTag place =>
      obtain ⟨b, st, hb, hadd, -⟩ := exec_add_ok hexec
      obtain ⟨d, hd, hdesc⟩ := h.exists_declaration hb
      have hrej := (add_ok hdesc.holds hadd).1
      rw [← hdesc.directions_eq, h.rejects_iff hdesc] at hrej
      exact hrej (hnoticed hshares d hd)

theorem Tracks.throws_iff_noticed {call : Call} (hfits : Fits s call) :
    (Collides s call → ∃ e, Process.exec s call = .error e) ↔ Noticed l call := by
  rw [h.collides_iff]
  refine ⟨fun hthrows => ?_, h.throws_of_noticed⟩
  cases call with
  | construct => trivial
  | add i receive communicationTag place =>
    intro hshares d hd
    obtain ⟨e, he⟩ := hthrows hshares
    obtain ⟨b, hb, hdesc⟩ := h.exists_buffer hd
    rw [← h.rejects_iff hdesc, hdesc.directions_eq]
    by_contra hrej
    obtain ⟨st, hst⟩ := exists_add (hfits b hb) hrej
    simp [Process.exec, hb, hst, Except.map] at he

/-- Two buffers share a tag exactly if two of their exchanges agree. -/
theorem Tracks.separate_iff : Separate s ↔ Apart l := by
  constructor
  · rintro hs i j d d' hij hd hd' x hx y hy hagree
    obtain ⟨b, hb, hdesc⟩ := h.exists_buffer hd
    obtain ⟨b', hb', hdesc'⟩ := h.exists_buffer hd'
    refine hs i j b b' hij hb hb' _ ((hdesc.holds.uses_iff _).mpr ⟨x, hx, rfl⟩)
      ((hdesc'.holds.uses_iff _).mpr ⟨y, hy, ?_⟩)
    exact (uniqCommunicationTag_eq_iff (hdesc.holds.direction_lt x hx) (hdesc'.holds.direction_lt y hy)).mpr hagree
  · rintro hl i j b b' hij hb hb' t ht ht'
    obtain ⟨d, hd, hdesc⟩ := h.exists_declaration hb
    obtain ⟨d', hd', hdesc'⟩ := h.exists_declaration hb'
    obtain ⟨x, hx, rfl⟩ := (hdesc.holds.uses_iff t).mp ht
    obtain ⟨y, hy, htag⟩ := (hdesc'.holds.uses_iff _).mp ht'
    refine hl i j d d' hij hd hd' x hx y hy ?_
    exact (uniqCommunicationTag_eq_iff (hdesc.holds.direction_lt x hx) (hdesc'.holds.direction_lt y hy)).mp htag

theorem Tracks.construct {D : ℕ} {layout : GridLayout D} :
    Tracks (declare l (.construct D layout)) { s with buffers := s.buffers ++ [⟨D, .init layout⟩] } where
  length := by simp [declare, h.length]
  describes i d b hd hb := by
    rw [declare, List.getElem?_append] at hd
    rw [List.getElem?_append, ← h.length] at hb
    split_ifs at hd hb with hi
    · exact h.describes i d b hd hb
    · obtain ⟨-, rfl⟩ := List.getElem?_eq_some_iff.mp hd
      obtain ⟨-, rfl⟩ := List.getElem?_eq_some_iff.mp hb
      simp only [List.getElem_singleton]
      exact ⟨rfl, .init layout, by simp⟩
  tags t := by
    rw [h.tags]
    simp only [getElem?_construct]
    constructor
    · rintro ⟨j, d, hd, hx⟩
      exact ⟨j, d, .inl hd, hx⟩
    · rintro ⟨j, d, hd | ⟨-, rfl⟩, x, hx, hsame⟩
      · exact ⟨j, d, hd, x, hx, hsame⟩
      · cases hx

theorem Tracks.mem_registered {i : ℕ} {d : Declaration} {b : (D : ℕ) × GridBuffer D} (hd : l[i]? = some d)
    (hdesc : Describes d b) {receive : Mask} {communicationTag : ℕ} {place : Placement} (t : ℕ) :
    t ∈ registered s.tags b.2.hasOneExchange communicationTag (directions d.dim receive place) ↔
      ∃ (j : ℕ) (d' : Declaration), (declare l (.add i receive communicationTag place))[j]? = some d' ∧
        ∃ x, d'.exchanges.head? = some x ∧ t = uniqCommunicationTag x.1 x.2 := by
  have hself : (declare l (.add i receive communicationTag place))[i]? = some _ := getElem?_declare_self hd
  have hone : b.2.hasOneExchange = true ↔ d.exchanges ≠ [] := hdesc.holds.hasOneExchange
  have hhead : ∀ x, (d.add receive communicationTag place).exchanges.head? = some x ↔ d.exchanges.head? = some x ∨
      b.2.hasOneExchange = false ∧ ∃ ex, (directions d.dim receive place).head? = some ex ∧
        x = (communicationTag, ex) := by
    intro x
    rw [Declaration.add, List.head?_append, List.head?_map]
    cases hex : d.exchanges with
    | nil =>
      have : b.2.hasOneExchange = false := by simpa [hex] using hone
      simp [this, eq_comm]
    | cons y ys =>
      have : b.2.hasOneExchange = true := hone.mpr (by simp [hex])
      simp [this]
  have hreg : t ∈ registered s.tags b.2.hasOneExchange communicationTag (directions d.dim receive place) ↔
      t ∈ s.tags ∨ b.2.hasOneExchange = false ∧ ∃ ex, (directions d.dim receive place).head? = some ex ∧
        t = uniqCommunicationTag communicationTag ex := by
    rw [registered]
    cases b.2.hasOneExchange <;> cases (directions d.dim receive place).head? <;> simp [or_comm]
  rw [hreg, h.tags]
  constructor
  · rintro (⟨j, d', hd', x, hx, rfl⟩ | ⟨hfirst, ex, hex, rfl⟩)
    · by_cases hji : j = i
      · subst hji
        obtain rfl := Option.some.inj (hd.symm.trans hd')
        exact ⟨j, _, hself, x, (hhead x).mpr (.inl hx), rfl⟩
      · exact ⟨j, d', by rwa [getElem?_declare_ne hji], x, hx, rfl⟩
    · exact ⟨i, _, hself, (communicationTag, ex), (hhead _).mpr (.inr ⟨hfirst, ex, hex, rfl⟩), rfl⟩
  · rintro ⟨j, d', hd', x, hx, rfl⟩
    by_cases hji : j = i
    · subst hji
      obtain rfl := Option.some.inj (hself.symm.trans hd')
      rcases (hhead x).mp hx with hx | ⟨hfirst, ex, hex, rfl⟩
      · exact .inl ⟨j, d, hd, x, hx, rfl⟩
      · exact .inr ⟨hfirst, ex, hex, rfl⟩
    · rw [getElem?_declare_ne hji] at hd'
      exact .inl ⟨j, d', hd', x, hx, rfl⟩

/-- A call that returns keeps the relation to what the calls ask for. -/
theorem Tracks.exec {call : Call} (hexec : exec s call = .ok s') : Tracks (declare l call) s' := by
  cases call with
  | construct D layout =>
    obtain rfl := Except.ok.inj hexec
    exact h.construct
  | add i receive communicationTag place =>
    obtain ⟨b, st, hb, hadd, rfl⟩ := exec_add_ok hexec
    obtain ⟨d, hd, hdesc⟩ := h.exists_declaration hb
    obtain ⟨hrej, hholds, htags, hlast⟩ := add_ok hdesc.holds hadd
    rw [← hdesc.directions_eq] at hholds htags
    refine ⟨by simp [declare, h.length], fun j d₁ b₁ hd₁ hb₁ => ?_, fun t => ?_⟩
    · by_cases hji : j = i
      · subst hji
        obtain rfl := Option.some.inj ((getElem?_declare_self hd).symm.trans hd₁)
        obtain rfl := Option.some.inj ((List.getElem?_set_self (List.getElem?_eq_some_iff.mp hb).1).symm.trans hb₁)
        refine ⟨hdesc.dim, hholds, fun x hx => ?_⟩
        rcases List.mem_append.mp hx with hx | hx
        · have hsame : communicationTag = b.2.lastUsedCommunicationTag := by
            by_contra hne
            exact hrej (.inl ⟨hdesc.holds.hasOneExchange.mpr (List.ne_nil_of_mem hx), hne⟩)
          rw [hdesc.lastUsed x hx, hlast, hsame]
        · obtain ⟨ex, -, rfl⟩ := List.mem_map.mp hx
          exact hlast.symm
      · rw [getElem?_declare_ne hji] at hd₁
        rw [List.getElem?_set_ne (Ne.symm hji)] at hb₁
        exact h.describes j d₁ b₁ hd₁ hb₁
    · rw [htags]
      exact h.mem_registered hd hdesc t

/-- In a run without a throw the buffers stay separate exactly if all calls that share an exchange are noticed. -/
theorem Tracks.run {calls : List Call} (hrun : calls.foldlM Process.exec s = .ok s') :
    Tracks (calls.foldl declare l) s' ∧ (Separate s' ↔ Separate s ∧ AllNoticed l calls) := by
  induction calls generalizing l s with
  | nil =>
    obtain rfl : s = s' := by simpa using Except.ok.inj hrun
    exact ⟨h, by simp [AllNoticed]⟩
  | cons call calls ih =>
    rw [List.foldlM_cons] at hrun
    cases hexec : Process.exec s call with
    | error e =>
      rw [hexec] at hrun
      cases hrun
    | ok s₁ =>
      rw [hexec] at hrun
      have h₁ := h.exec hexec
      obtain ⟨ht, hiff⟩ := ih h₁ hrun
      refine ⟨ht, ?_⟩
      have hnoticed : ¬ Shares l call ↔ Noticed l call := by
        refine ⟨fun hn => ?_, fun hn hshares => ?_⟩
        · cases call with
          | construct => trivial
          | add => exact fun hshares => absurd hshares hn
        · obtain ⟨e, he⟩ := h.throws_of_noticed hn hshares
          rw [hexec] at he
          cases he
      rw [hiff, h₁.separate_iff, apart_declare, ← h.separate_iff, hnoticed, and_assoc, AllNoticed]

end Tracking

def start : Process := ⟨∅, []⟩

/-- In every run without a throw the buffers stay separate exactly if each call that shares an exchange is one that
the class notices, and the next call throws on a collision exactly if it is. -/
theorem separate_iff_allNoticed {s : Process} {calls : List Call} (h : calls.foldlM exec start = .ok s) :
    (Separate s ↔ AllNoticed [] calls) ∧ ∀ call, Fits s call →
      ((Collides s call → ∃ e, exec s call = .error e) ↔ Noticed (calls.foldl declare []) call) := by
  obtain ⟨htracks, hiff⟩ := Tracks.start.run h
  have hstart : Separate start := fun i j b b' _ hb => by simp [start] at hb
  exact ⟨hiff.trans (and_iff_right hstart), fun call hfits => htracks.throws_iff_noticed hfits⟩

/-- Two buffers with one guard layer; the first one exchanges along x. -/
def firstCalls : List Call :=
  [.construct 2 ⟨![8, 8], ![1, 1]⟩, .construct 2 ⟨![8, 8], ![1, 1]⟩,
    .add 0 ((Mask.ofExchange LEFT).add (Mask.ofExchange RIGHT)) 1 (.inBuffer .GUARD fun _ => 1)]

def sharedCalls : List Call :=
  firstCalls ++ [.add 1 (Mask.ofExchange RIGHT) 1 (.inBuffer .GUARD fun _ => 1)]

theorem sharedCalls_tag : ((sharedCalls.foldlM exec start).toOption.any fun s => (List.range 2).all fun i =>
    (s.buffers[i]?).any fun b => (b.2.sendExchanges LEFT).any fun e => e.communicationTag == 34) = true := by
  decide +kernel

/-- The first buffer registered its tag for sending to the right only. -/
theorem sharedCalls_not_separate : ∃ s, sharedCalls.foldlM exec start = .ok s ∧ ¬ Separate s := by
  have h := sharedCalls_tag
  cases hrun : sharedCalls.foldlM exec start with
  | error e => simp [hrun, Except.toOption] at h
  | ok s =>
    refine ⟨s, rfl, fun hs => ?_⟩
    simp only [hrun, Except.toOption, Option.any_some, List.all_eq_true] at h
    have huses : ∀ i < 2, ∃ b, s.buffers[i]? = some b ∧ b.2.Uses 34 := by
      intro i hi
      obtain ⟨b, hb, hany⟩ := (Option.any_eq_true _ _).mp (h i (List.mem_range.mpr hi))
      obtain ⟨e, he, htag⟩ := (Option.any_eq_true _ _).mp hany
      exact ⟨b, hb, LEFT, e, .inl he, by simpa using htag⟩
    obtain ⟨b, hb, hu⟩ := huses 0 (by norm_num)
    obtain ⟨b', hb', hu'⟩ := huses 1 (by norm_num)
    exact hs 0 1 b b' (by norm_num) hb hb' 34 hu hu'

def separateCalls : List Call :=
  firstCalls ++ [.add 1 (Mask.ofExchange RIGHT) 2 (.inBuffer .GUARD fun _ => 1)]

theorem separateCalls_allNoticed : AllNoticed [] separateCalls := by
  refine ⟨trivial, trivial, fun hs => absurd hs (not_shares ?_), fun hs => absurd hs (not_shares ?_), trivial⟩
  · simp [declare]
  · simp [declare, Declaration.add]

theorem separateCalls_returns : (separateCalls.foldlM exec start).toOption.isSome = true := by decide +kernel

theorem separate_iff_allNoticed_separateCalls : ∃ s, separateCalls.foldlM exec start = .ok s ∧ Separate s ∧
    ∀ call, Fits s call → ((Collides s call → ∃ e, exec s call = .error e) ↔
      Noticed (separateCalls.foldl declare []) call) := by
  cases hrun : separateCalls.foldlM exec start with
  | error e =>
    have h := separateCalls_returns
    simp [hrun, Except.toOption] at h
  | ok s =>
    obtain ⟨hsep, hnext⟩ := separate_iff_allNoticed hrun
    exact ⟨s, rfl, hsep.mpr separateCalls_allNoticed, hnext⟩

end Process

end PIConGPU
