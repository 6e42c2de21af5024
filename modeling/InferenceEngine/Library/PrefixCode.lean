import Mathlib.Data.List.Basic
import Mathlib.Data.List.Infix

/-!
# Self-synchronising codes and streams

A code gives every character a word of bytes. The decoder here reads any bytes: it keeps the bytes of an
unfinished word, and where they cannot be continued it puts a replacement character for them. When the
first byte of a word occurs nowhere inside a word, a word is decoded wherever it stands, and the text of a
prefix is a prefix of the text unless the prefix ends inside a word.
-/

/-- A self-synchronising code of characters `C` by words over `B`. -/
structure PrefixCode (B C : Type) where
  encode : C → List B
  /-- The character of a word. -/
  charOf : List B → Option C
  /-- Whether the bytes are the beginning of a word, and not all of it. -/
  incomplete : List B → Bool
  /-- What stands for bytes that are not part of a word. -/
  replacement : C
  charOf_eq_some : ∀ s c, charOf s = some c ↔ encode c = s
  incomplete_iff : ∀ s, incomplete s = true ↔ s ≠ [] ∧ ∃ c t, t ≠ [] ∧ encode c = s ++ t
  encode_ne_nil : ∀ c, encode c ≠ []
  /-- No word is the beginning of another. -/
  prefix_free : ∀ c c' t, encode c' = encode c ++ t → t = []
  /-- The first byte of a word is not inside a word. -/
  head_not_inside : ∀ c c' b s t t', encode c = b :: t' → encode c' = s ++ b :: t → s = []

namespace PrefixCode

variable {B C : Type} (P : PrefixCode B C)

/-- A byte where no word is unfinished: the output, and the unfinished word. -/
def start (b : B) : List C × List B :=
  match P.charOf [b] with
  | some c => ([c], [])
  | none => if P.incomplete [b] then ([], [b]) else ([P.replacement], [])

/-- A byte after the unfinished word `pending`. -/
def step (pending : List B) (b : B) : List C × List B :=
  if pending.isEmpty then P.start b
  else
    match P.charOf (pending ++ [b]) with
    | some c => ([c], [])
    | none =>
      if P.incomplete (pending ++ [b]) then ([], pending ++ [b])
      else (P.replacement :: (P.start b).1, (P.start b).2)

/-- Bytes after the unfinished word `pending`. -/
def run : List B → List B → List C × List B
  | pending, [] => ([], pending)
  | pending, b :: bytes =>
    ((P.step pending b).1 ++ (run (P.step pending b).2 bytes).1, (run (P.step pending b).2 bytes).2)

/-- What stands for an unfinished word at the end. -/
def flush (pending : List B) : List C := if pending.isEmpty then [] else [P.replacement]

/-- The text of the bytes, with the replacement for what is incomplete or invalid. -/
def decode (bytes : List B) : List C := (P.run [] bytes).1 ++ P.flush (P.run [] bytes).2

/-- The characters that have their place in the text whatever follows. -/
def settled (bytes : List B) : List C := (P.run [] bytes).1

/-- The unfinished word at the end. -/
def pending (bytes : List B) : List B := (P.run [] bytes).2

theorem run_append (p xs ys : List B) :
    P.run p (xs ++ ys) = ((P.run p xs).1 ++ (P.run (P.run p xs).2 ys).1, (P.run (P.run p xs).2 ys).2) := by
  induction xs generalizing p with
  | nil => rfl
  | cons x xs ih => simp only [List.cons_append, run, ih, List.append_assoc]

/-! ### The unfinished word -/

theorem start_pending (b : B) : (P.start b).2 = [] ∨ (P.start b).2 = [b] ∧ P.incomplete [b] = true := by
  rw [start]
  split
  · exact .inl rfl
  · split
    · exact .inr ⟨rfl, ‹_›⟩
    · exact .inl rfl

/-- The unfinished word after a byte ends in that byte, or is empty. -/
theorem step_pending (p : List B) (b : B) :
    ((P.step p b).2 = [] ∨ P.incomplete (P.step p b).2 = true) ∧ (P.step p b).2 <:+ p ++ [b] := by
  have hstart : ((P.start b).2 = [] ∨ P.incomplete (P.start b).2 = true) ∧ (P.start b).2 <:+ p ++ [b] := by
    obtain h | ⟨h, hinc⟩ := P.start_pending b
    · rw [h]
      exact ⟨.inl rfl, List.nil_suffix⟩
    · rw [h]
      exact ⟨.inr hinc, List.suffix_append p [b]⟩
  rw [step]
  split
  · exact hstart
  split
  · exact ⟨.inl rfl, List.nil_suffix⟩
  split
  · exact ⟨.inr ‹_›, List.suffix_rfl⟩
  · exact hstart

theorem run_pending {p : List B} (hp : p = [] ∨ P.incomplete p = true) (bytes : List B) :
    ((P.run p bytes).2 = [] ∨ P.incomplete (P.run p bytes).2 = true) ∧
      (P.run p bytes).2 <:+ p ++ bytes := by
  induction bytes generalizing p with
  | nil =>
    rw [run, List.append_nil]
    exact ⟨hp, List.suffix_rfl⟩
  | cons b bytes ih =>
    obtain ⟨hinc, hsuffix⟩ := P.step_pending p b
    obtain ⟨hinc', hsuffix'⟩ := ih hinc
    refine ⟨hinc', hsuffix'.trans ?_⟩
    obtain ⟨u, hu⟩ := hsuffix
    refine ⟨u, ?_⟩
    rw [← List.append_assoc, hu, List.append_assoc, List.singleton_append]

/-- The next character after an unfinished word: the one it is the beginning of, when the bytes go on with
the rest of the word, and the replacement otherwise. -/
theorem head_of_pending {p : List B} (hp : p ≠ []) (bytes : List B) :
    ∃ c text, (P.run p bytes).1 ++ P.flush (P.run p bytes).2 = c :: text ∧
      (c = P.replacement ∨ ∃ v w, v ≠ [] ∧ bytes = v ++ w ∧ P.encode c = p ++ v) := by
  have hempty : p.isEmpty = false := by simpa using hp
  induction bytes generalizing p with
  | nil => exact ⟨P.replacement, [], by simp [run, flush, hempty], .inl rfl⟩
  | cons b bytes ih =>
    rw [run, step, hempty, if_neg Bool.false_ne_true]
    cases hchar : P.charOf (p ++ [b]) with
    | some c =>
      exact ⟨c, _, rfl, .inr ⟨[b], bytes, by simp, rfl, (P.charOf_eq_some _ _).mp hchar⟩⟩
    | none =>
      dsimp only
      by_cases hinc : P.incomplete (p ++ [b]) = true
      · rw [if_pos hinc]
        obtain ⟨c, text, htext, hc⟩ := ih (p := p ++ [b]) (by simp) (by simp)
        refine ⟨c, text, htext, hc.imp_right ?_⟩
        intro ⟨v, w, _, hbytes, hencode⟩
        exact ⟨b :: v, w, by simp, by rw [hbytes, List.cons_append], by simpa using hencode⟩
      · rw [if_neg hinc]
        exact ⟨P.replacement, _, rfl, .inl rfl⟩

/-! ### Words -/

section Words

variable {P} {c : C}

theorem charOf_none_of_begins {s t : List B} (h : P.encode c = s ++ t) (ht : t ≠ []) :
    P.charOf s = none := by
  cases hchar : P.charOf s with
  | none => rfl
  | some c' =>
    rw [← (P.charOf_eq_some s c').mp hchar] at h
    exact absurd (P.prefix_free c' c t h) ht

theorem incomplete_of_begins {s t : List B} (h : P.encode c = s ++ t) (hs : s ≠ []) (ht : t ≠ []) :
    P.incomplete s = true :=
  (P.incomplete_iff s).mpr ⟨hs, c, t, ht, h⟩

theorem step_of_ne_nil {p : List B} (hp : p ≠ []) (b : B) :
    P.step p b = match P.charOf (p ++ [b]) with
      | some c => ([c], [])
      | none => if P.incomplete (p ++ [b]) then ([], p ++ [b])
        else (P.replacement :: (P.start b).1, (P.start b).2) := by
  rw [step, if_neg (by simpa using hp)]

/-- Inside a word nothing is put out. -/
theorem run_inside {p v t : List B} (hp : p ≠ []) (h : P.encode c = p ++ v ++ t) (ht : t ≠ []) :
    P.run p v = ([], p ++ v) := by
  induction v generalizing p with
  | nil => rw [run, List.append_nil]
  | cons b v ih =>
    have hword : P.encode c = (p ++ [b]) ++ (v ++ t) := by simpa using h
    have hrest : v ++ t ≠ [] := List.append_ne_nil_of_right_ne_nil v ht
    have hstep : P.step p b = ([], p ++ [b]) := by
      rw [step_of_ne_nil hp, charOf_none_of_begins hword hrest]
      dsimp only
      rw [if_pos (incomplete_of_begins hword (by simp) hrest)]
    rw [run, hstep, ih (by simp) (by simpa using h)]
    simp

/-- The first byte of a word ends an unfinished word before it. -/
theorem run_word {p : List B} {b : B} {bytes t : List B} (h : P.encode c = b :: t) :
    P.run p (b :: bytes) = (P.flush p ++ (P.run [] (b :: bytes)).1, (P.run [] (b :: bytes)).2) := by
  have hstep : P.step p b = (P.flush p ++ (P.start b).1, (P.start b).2) := by
    by_cases hp : p = []
    · rw [hp]
      rfl
    have hchar : P.charOf (p ++ [b]) = none := by
      cases hchar : P.charOf (p ++ [b]) with
      | none => rfl
      | some c' => exact absurd (P.head_not_inside c c' b p [] t h ((P.charOf_eq_some _ _).mp hchar)) hp
    have hinc : P.incomplete (p ++ [b]) ≠ true := by
      intro hinc
      obtain ⟨-, c', t', -, hword⟩ := (P.incomplete_iff _).mp hinc
      exact hp (P.head_not_inside c c' b p t' t h (by simpa using hword))
    rw [step_of_ne_nil hp, hchar]
    dsimp only
    rw [if_neg hinc, flush, if_neg (by simpa using hp)]
    rfl
  have hnil : P.step [] b = P.start b := rfl
  rw [run, run, hstep, hnil, List.append_assoc]

theorem start_of_word {b : B} {t : List B} (h : P.encode c = b :: t) (ht : t ≠ []) :
    P.start b = ([], [b]) := by
  have hword : P.encode c = [b] ++ t := h
  rw [start, charOf_none_of_begins hword ht]
  dsimp only
  rw [if_pos (incomplete_of_begins hword (by simp) ht)]

/-- A part of a word is unfinished, whatever stood before it. -/
theorem run_part {p v t : List B} (h : P.encode c = v ++ t) (hv : v ≠ []) (ht : t ≠ []) :
    P.run p v = (P.flush p, v) := by
  obtain ⟨b, v, rfl⟩ := List.exists_cons_of_ne_nil hv
  have hword : P.encode c = b :: (v ++ t) := h
  have hstep : P.step [] b = ([], [b]) :=
    start_of_word hword (List.append_ne_nil_of_right_ne_nil v ht)
  rw [run_word hword, run, hstep, run_inside (p := [b]) (by simp) (by simpa using hword) ht]
  simp

/-- The rest of a word completes it. -/
theorem run_rest {v t : List B} (h : P.encode c = v ++ t) (hv : v ≠ []) (ht : t ≠ []) :
    P.run v t = ([c], []) := by
  obtain ⟨t, z, rfl⟩ := List.eq_nil_or_concat t |>.resolve_left ht
  rw [List.concat_eq_append] at h ⊢
  have hchar : P.charOf (v ++ t ++ [z]) = some c := (P.charOf_eq_some _ _).mpr (by simpa using h)
  have hinside := run_inside (t := [z]) hv (by simpa using h) (by simp)
  rw [run_append, hinside, run, run, step_of_ne_nil (List.append_ne_nil_of_left_ne_nil hv t), hchar]
  rfl

end Words

/-! ### The text of a prefix -/

section Text

variable {P} {xs ys : List B}

theorem decode_append : P.decode (xs ++ ys) = P.settled xs ++
    ((P.run (P.pending xs) ys).1 ++ P.flush (P.run (P.pending xs) ys).2) := by
  rw [decode, run_append, List.append_assoc]
  rfl

theorem decode_of_pending_nil (h : P.pending xs = []) : P.decode xs = P.settled xs := by
  have hrun : (P.run [] xs).2 = [] := h
  rw [decode, hrun]
  exact List.append_nil _

theorem decode_of_pending (h : P.pending xs ≠ []) : P.decode xs = P.settled xs ++ [P.replacement] := by
  have hempty : (P.run [] xs).2.isEmpty = false := by simpa [pending] using h
  rw [decode, flush, hempty]
  rfl

/-- **The text of a prefix is a prefix of the text** exactly when the prefix does not end inside a word,
but for the word of the replacement. -/
theorem decode_prefix_iff : P.decode xs <+: P.decode (xs ++ ys) ↔
    ∀ u c w, xs ++ ys = u ++ P.encode c ++ w → u.length < xs.length →
      xs.length < u.length + (P.encode c).length → c = P.replacement := by
  constructor
  · intro hstarts u c w hbytes hlow hhigh
    -- the word starts in `xs` and ends in `ys`
    obtain ⟨v, rfl⟩ : ∃ v, xs = u ++ v :=
      (List.prefix_of_prefix_length_le ⟨P.encode c ++ w, by rw [hbytes, List.append_assoc]⟩
        (List.prefix_append xs ys) (Nat.le_of_lt hlow)).imp fun _ h => h.symm
    rw [List.append_assoc, List.append_assoc, List.append_cancel_left_eq] at hbytes
    rw [List.length_append] at hlow hhigh
    obtain ⟨t, ht⟩ : v <+: P.encode c :=
      List.prefix_of_prefix_length_le (List.prefix_append v ys) ⟨w, hbytes.symm⟩ (by omega)
    have hv : v ≠ [] := List.ne_nil_of_length_pos (by omega)
    have ht0 : t ≠ [] := by
      apply List.ne_nil_of_length_pos
      have hlen := congrArg List.length ht
      rw [List.length_append] at hlen
      omega
    rw [← ht, List.append_assoc, List.append_cancel_left_eq] at hbytes
    have hpart : P.run [] (u ++ v) = ((P.run [] u).1 ++ P.flush (P.run [] u).2, v) := by
      rw [run_append, run_part ht.symm hv ht0]
    have hpending : P.pending (u ++ v) = v := congrArg Prod.snd hpart
    rw [decode_of_pending (by rw [hpending]; exact hv), decode_append, hpending, hbytes, run_append,
      run_rest ht.symm hv ht0, List.prefix_append_right_inj] at hstarts
    exact (List.cons_prefix_cons.mp hstarts).1.symm
  · intro hwords
    by_cases hp : P.pending xs = []
    · rw [decode_of_pending_nil hp, decode_append]
      exact List.prefix_append _ _
    · obtain ⟨c, text, htext, hc⟩ := P.head_of_pending hp ys
      obtain ⟨u, hu⟩ := (P.run_pending (.inl rfl) xs).2
      rw [List.nil_append] at hu
      have hrepl : c = P.replacement := by
        obtain hc | ⟨v, w, hv, hys, hencode⟩ := hc
        · exact hc
        have hxs : u ++ P.pending xs = xs := hu
        have hlen := congrArg List.length hxs
        have hpos := List.length_pos_iff.mpr hp
        have hvpos := List.length_pos_iff.mpr hv
        rw [List.length_append] at hlen
        refine hwords u c w ?_ (by omega) ?_
        · rw [hencode, hys, ← List.append_assoc, ← List.append_assoc, hxs]
        · rw [hencode, List.length_append]
          omega
      rw [decode_of_pending hp, decode_append, htext, hrepl, List.prefix_append_right_inj]
      exact List.cons_prefix_cons.mpr ⟨rfl, List.nil_prefix⟩

theorem length_decode_le (xs ys : List B) : (P.decode xs).length ≤ (P.decode (xs ++ ys)).length := by
  by_cases hp : P.pending xs = []
  · rw [decode_of_pending_nil hp, decode_append]
    exact (List.prefix_append _ _).length_le
  · obtain ⟨c, text, htext, -⟩ := P.head_of_pending hp ys
    rw [decode_of_pending hp, decode_append, htext, List.length_append, List.length_append]
    simp

theorem settled_isPrefix (xs ys : List B) : P.settled xs <+: P.settled (xs ++ ys) := by
  have hrun := congrArg Prod.fst (P.run_append [] xs ys)
  exact ⟨_, hrun.symm⟩

theorem settled_isPrefix_decode (xs ys : List B) : P.settled xs <+: P.decode (xs ++ ys) := by
  rw [decode_append]
  exact List.prefix_append _ _

end Text

/-! ### Streams -/

section Stream

/-- What a stream shows for the chunks after `bytes`: each time, the text past the length of the text
before. -/
def stream : List B → List (List B) → List (List C)
  | _, [] => []
  | bytes, chunk :: chunks =>
    (P.decode (bytes ++ chunk)).drop (P.decode bytes).length :: stream (bytes ++ chunk) chunks

/-- `shown` is as long as the text of the bytes, and where a word is unfinished it has the replacement. -/
structure Shown (bytes : List B) (shown : List C) : Prop where
  length_eq : shown.length = (P.decode bytes).length
  pending : P.pending bytes ≠ [] → shown[(P.settled bytes).length]? = some P.replacement

variable {P} {bytes : List B} {shown : List C}

/-- One chunk more keeps it so: the place of an unfinished word was filled when its first bytes came. -/
theorem Shown.append (h : P.Shown bytes shown) (chunk : List B) :
    P.Shown (bytes ++ chunk) (shown ++ (P.decode (bytes ++ chunk)).drop (P.decode bytes).length) := by
  have hle := length_decode_le (P := P) bytes chunk
  refine ⟨?_, ?_⟩
  · rw [List.length_append, List.length_drop, h.length_eq]
    omega
  intro hp
  have hdecode := decode_of_pending hp
  by_cases hnew : (P.decode bytes).length ≤ (P.settled (bytes ++ chunk)).length
  · rw [List.getElem?_append_right (h.length_eq ▸ hnew), List.getElem?_drop, h.length_eq,
      Nat.add_sub_cancel' hnew, hdecode]
    simp
  · -- the place was there before, and it is the one of the word that was unfinished then
    have hold : P.pending bytes ≠ [] := by
      intro hnil
      rw [decode_of_pending_nil hnil] at hnew
      exact hnew (settled_isPrefix bytes chunk).length_le
    have hsettled := (settled_isPrefix (P := P) bytes chunk).length_le
    rw [decode_of_pending hold, List.length_append, List.length_singleton] at hnew
    have hplace : (P.settled (bytes ++ chunk)).length = (P.settled bytes).length := by omega
    have hlt : (P.settled bytes).length < shown.length := by
      rw [h.length_eq, decode_of_pending hold, List.length_append, List.length_singleton]
      omega
    rw [hplace, List.getElem?_append_left hlt]
    exact h.pending hold

/-- When what has been shown starts the text, so does the text of the bytes so far. -/
theorem Shown.decode_isPrefix (h : P.Shown bytes shown) {rest : List B}
    (hshown : shown <+: P.decode (bytes ++ rest)) : P.decode bytes <+: P.decode (bytes ++ rest) := by
  by_cases hp : P.pending bytes = []
  · rw [decode_of_pending_nil hp]
    exact settled_isPrefix_decode bytes rest
  obtain ⟨tail, htail⟩ := settled_isPrefix_decode (P := P) bytes rest
  have hlt : (P.settled bytes).length < shown.length := by
    rw [h.length_eq, decode_of_pending hp, List.length_append, List.length_singleton]
    omega
  have hget : (P.decode (bytes ++ rest))[(P.settled bytes).length]? = some P.replacement := by
    obtain ⟨more, hmore⟩ := hshown
    rw [← hmore, List.getElem?_append_left hlt]
    exact h.pending hp
  rw [← htail, List.getElem?_append_right (Nat.le_refl _), Nat.sub_self] at hget
  obtain ⟨c, tail, rfl⟩ : ∃ c more, tail = c :: more := by
    cases tail with
    | nil => cases hget
    | cons c more => exact ⟨c, more, rfl⟩
  obtain rfl : c = P.replacement := by simpa using hget
  rw [decode_of_pending hp, ← htail, List.prefix_append_right_inj]
  exact List.cons_prefix_cons.mpr ⟨rfl, List.nil_prefix⟩

theorem stream_eq_iff (h : P.Shown bytes shown) (chunks : List (List B)) :
    shown ++ (P.stream bytes chunks).flatten = P.decode (bytes ++ chunks.flatten) ↔
      shown = P.decode bytes ∧
        ∀ k, P.decode (bytes ++ (chunks.take k).flatten) <+: P.decode (bytes ++ chunks.flatten) := by
  induction chunks generalizing bytes shown with
  | nil => simp [stream]
  | cons chunk chunks ih =>
    have hih := ih (h.append chunk)
    rw [stream, List.flatten_cons, ← List.append_assoc, List.flatten_cons, ← List.append_assoc, hih]
    constructor
    · intro ⟨hshown, htexts⟩
      have hstart : shown <+: P.decode (bytes ++ (chunk ++ chunks.flatten)) := by
        have hmid : shown <+: P.decode (bytes ++ chunk) := hshown ▸ List.prefix_append _ _
        have hlast := htexts 0
        rw [List.take_zero, List.flatten_nil, List.append_nil] at hlast
        rw [← List.append_assoc]
        exact hmid.trans hlast
      have hbytes := h.decode_isPrefix hstart
      refine ⟨?_, ?_⟩
      · exact (List.prefix_of_prefix_length_le hstart hbytes h.length_eq.le).eq_of_length h.length_eq
      intro k
      cases k with
      | zero =>
        rw [List.take_zero, List.flatten_nil, List.append_nil, List.append_assoc]
        exact hbytes
      | succ k =>
        rw [List.take_succ_cons, List.flatten_cons, ← List.append_assoc]
        exact htexts k
    · intro ⟨hshown, htexts⟩
      have hstart := htexts 0
      rw [List.take_zero, List.flatten_nil, List.append_nil] at hstart
      have hnext : ∀ k, P.decode (bytes ++ chunk ++ (chunks.take k).flatten) <+:
          P.decode (bytes ++ chunk ++ chunks.flatten) := by
        intro k
        have htext := htexts (k + 1)
        rw [List.take_succ_cons, List.flatten_cons, ← List.append_assoc] at htext
        exact htext
      refine ⟨?_, hnext⟩
      have hmid := hnext 0
      rw [List.take_zero, List.flatten_nil, List.append_nil] at hmid
      obtain ⟨tail, htail⟩ := List.prefix_of_prefix_length_le hstart hmid
        (length_decode_le bytes chunk)
      rw [hshown, ← htail, List.drop_left']
      rfl

end Stream

end PrefixCode
