import InferenceEngine.KvCache.Refinement

/-!
# Soundness of prefix matching

An entry of the prefix cache stores its own tokens and the hash of the chain of blocks in front of it. Two
chains with one hash are told apart nowhere, so a lookup can hand out a block that was registered behind
other tokens. It does so exactly when it reaches such a collision.
-/

namespace InferenceEngine

open Exec

/-- What `acquire_shared_prefix` compares of an entry, less the key of its bucket: the hash of the chain
in front of the block, and the tokens of the block. -/
abbrev Link := Hash × List Int

/-- The link of an entry. -/
def entryLink (e : Hash × PrefixEntry) : Link := (e.2.parent, e.2.tokens)

/-- Block `b` of a list of blocks has the link `x`. -/
def HasLink (spans : List (List Int)) (b : Nat) (x : Link) : Prop :=
  x.1 = chainHash (spans.take b) ∧ spans[b]? = some x.2

instance (spans : List (List Int)) (b : Nat) (x : Link) : Decidable (HasLink spans b x) := by
  unfold HasLink
  infer_instance

theorem HasLink.unique {spans : List (List Int)} {b : Nat} {x y : Link} (hx : HasLink spans b x)
    (hy : HasLink spans b y) : x = y := Prod.ext (hx.1.trans hy.1.symm) (Option.some.inj (hx.2.symm.trans hy.2))

/-- Two chains of blocks with one hash. -/
def Collide (chain chain' : List (List Int)) : Prop := chain ≠ chain' ∧ chainHash chain = chainHash chain'

namespace Pool

variable {K : Type} {c : PoolSizes} {n : Nat} {p p' : Pool K}

/-- Block `b` of a list of blocks is cached. -/
def CachedAt (p : Pool K) (spans : List (List Int)) (b : Nat) : Prop :=
  ∃ e ∈ p.prefixes, HasLink spans b (entryLink e)

/-- The blocks a lookup hands out are those of entries with the links of its blocks. -/
theorem matchChain_getElem? {rest pre : List (List Int)} {b block : Nat}
    (h : (matchChain c p.prefixes rest (chainHash pre))[b]? = some block) :
    ∃ e ∈ p.prefixes, HasLink (pre ++ rest) (pre.length + b) (entryLink e) ∧ e.2.block = block := by
  induction rest generalizing pre b with
  | nil => simp [matchChain] at h
  | cons span rest ih =>
    simp only [matchChain] at h
    cases he : findEntry c (hashBlock (chainHash pre) span) (chainHash pre) span p.prefixes with
    | none => simp [he] at h
    | some e =>
      simp only [he] at h
      obtain ⟨hmem, -, hparent, -, htokens⟩ := findEntry_some he
      cases b with
      | zero =>
        rw [List.getElem?_cons_zero, Option.some.injEq] at h
        exact ⟨e, hmem, ⟨by simp [entryLink, hparent], by simp [entryLink, htokens]⟩, h⟩
      | succ b =>
        rw [List.getElem?_cons_succ, ← chainHash_snoc] at h
        obtain ⟨e', hmem', hlink, hblock⟩ := ih h
        rw [List.append_assoc, List.singleton_append, List.length_append, List.length_singleton,
          Nat.add_assoc, Nat.add_comm 1] at hlink
        exact ⟨e', hmem', hlink, hblock⟩

/-- Entries are in the bucket of their link, and cache full blocks. -/
def Keyed (c : PoolSizes) (p : Pool K) : Prop :=
  ∀ e ∈ p.prefixes, e.1 = hashBlock e.2.parent e.2.tokens ∧ e.2.tokens.length = c.blockSize

theorem lt_length_matchChain (hp : p.Keyed c) {rest pre : List (List Int)} {b : Nat}
    (h : ∀ j ≤ b, p.CachedAt (pre ++ rest) (pre.length + j)) :
    b < (matchChain c p.prefixes rest (chainHash pre)).length := by
  induction rest generalizing pre b with
  | nil =>
    obtain ⟨e, -, -, hspan⟩ := h 0 (Nat.zero_le b)
    simp at hspan
  | cons span rest ih =>
    obtain ⟨e, he, hparent, hspan⟩ := h 0 (Nat.zero_le b)
    simp only [Nat.add_zero, List.take_left, entryLink] at hparent
    simp only [Nat.add_zero, List.getElem?_append_right le_rfl, Nat.sub_self, List.getElem?_cons_zero,
      Option.some.injEq, entryLink] at hspan
    -- the entry is in the bucket the lookup probes
    have hsome : findEntry c (hashBlock (chainHash pre) span) (chainHash pre) span p.prefixes ≠ none := by
      rw [findEntry, ne_eq, List.find?_eq_none]
      intro hnone
      obtain ⟨hkey, hlen⟩ := hp e he
      exact hnone e he (by simp [hkey, hparent, hspan, PrefixEntry.Matches, hlen])
    obtain ⟨e', he'⟩ := Option.ne_none_iff_exists'.mp hsome
    simp only [matchChain, he', List.length_cons]
    cases b with
    | zero => exact Nat.succ_pos _
    | succ b =>
      rw [← chainHash_snoc]
      refine Nat.succ_lt_succ (ih fun j hj => ?_)
      rw [List.append_assoc, List.singleton_append, List.length_append, List.length_singleton,
        Nat.add_assoc, Nat.add_comm 1]
      exact h (j + 1) (Nat.succ_le_succ hj)

/-- No two entries have one link. -/
def LinksNodup (p : Pool K) : Prop := (p.prefixes.map entryLink).Nodup

theorem LinksNodup.eq_of_link_eq (h : p.LinksNodup) {e e' : Hash × PrefixEntry} (he : e ∈ p.prefixes)
    (he' : e' ∈ p.prefixes) (heq : entryLink e = entryLink e') : e = e' :=
  List.inj_on_of_nodup_map h he he' heq

theorem map_entryLink_of_map_untick {es es' : List (Hash × PrefixEntry)}
    (hes : es'.map untick = es.map untick) : es'.map entryLink = es.map entryLink := by
  have h := congrArg (List.map entryLink) hes
  rw [List.map_map, List.map_map] at h
  exact h

/-- `register_prefix` skips the links that are there. -/
theorem wp_registerPrefix_linksNodup {id : Nat} {tokens : List Int} (h : p.Keyed c) (hnodup : p.LinksNodup) :
    wp (registerPrefix c id tokens) (fun _ p' => p'.LinksNodup) (fun _ _ => True) p := by
  simp only [registerPrefix, wp_bind, wp_get]
  have hloop := wp_foldlM (f := fun parent (x : List Int × Nat) => registerBlock (K := K) c parent x.1 x.2)
    (I := fun todo _ q => q.LinksNodup ∧ q.Keyed c ∧
      ∀ x ∈ todo, x.1.length = c.blockSize)
    (E := fun _ _ => True) ?_ ((c.spans tokens).zip (p.seqs id).blockTable) 0 p
    ⟨hnodup, h, fun x hx => c.length_of_mem_spans (List.of_mem_zip hx).1⟩
  · exact wp_mono hloop (fun _ _ hq => hq.1) fun _ _ ht => ht
  · rintro ⟨span, block⟩ todo parent q ⟨hq, hentries, htodo⟩
    have hspan : span.length = c.blockSize := htodo _ List.mem_cons_self
    have hrest : ∀ x ∈ todo, x.1.length = c.blockSize := fun x hx => htodo x (List.mem_cons_of_mem _ hx)
    simp only [registerBlock, wp_bind, wp_get]
    refine wp_ite (fun hnew => ?_) fun _ => ?_
    · simp only [onAlloc, wp_bind, wp_get, wp_lift, wp_modify, wp_pure]
      refine ⟨fun a _ => ⟨?_, fun e he => ?_, hrest⟩, fun _ _ => trivial⟩
      · rw [LinksNodup, List.map_append, List.map_singleton, List.nodup_append]
        refine ⟨hq, List.nodup_singleton _, ?_⟩
        rintro x hx y hy rfl
        obtain ⟨e, he, heq⟩ := List.mem_map.mp hx
        rw [List.mem_singleton.mp hy, entryLink, entryLink, Prod.mk.injEq] at heq
        obtain ⟨hparent, htokens⟩ := heq
        obtain ⟨hkey, -⟩ := hentries e he
        simp only at hparent htokens
        exact hnew e he ⟨by rw [hkey, hparent, htokens], hparent, by rw [htokens, hspan], htokens⟩
      · rcases List.mem_append.mp he with he | he
        · exact hentries e he
        · rw [List.mem_singleton.mp he]
          exact ⟨rfl, hspan⟩
    · exact ⟨hq, hentries, hrest⟩

end Pool

/-- A block manager in use, and for the link of every cached block the blocks its registering sequence
had up to and including it. -/
structure Provenance (K : Type) where
  traced : Traced K
  origin : Link → List (List Int)

namespace Provenance

open Pool

variable {K : Type} (c : PoolSizes)

/-- Registering `tokens` creates entries for the links that are not cached yet. -/
def registerOrigin (s : Provenance K) (tokens : List Int) (x : Link) : List (List Int) :=
  if x ∈ s.traced.pool.prefixes.map entryLink then s.origin x
  else
    match (List.range (c.spans tokens).length).find? fun j => HasLink (c.spans tokens) j x with
    | some j => (c.spans tokens).take (j + 1)
    | none => s.origin x

def machine [Zero K] : Machine (Provenance K) (PoolOp K) where
  start := ⟨(Traced.machine c).start, fun _ => []⟩
  next s op :=
    { traced := s.traced.next c op
      origin :=
        match op with
        | .register _ tokens => s.registerOrigin c tokens
        | _ => s.origin }

/-- What prefix matching promises of `tokens`: block `b - 1` of the result was registered by a sequence
whose tokens up to there are the first `b * block_size` of `tokens`. -/
def Sound (s : Provenance K) (id : Nat) (tokens : List Int) : Prop :=
  ∀ m p', acquireSharedPrefix c id tokens s.traced.pool = .ok m p' → ∀ b, 0 < b → b * c.blockSize ≤ m →
    ∃ e ∈ s.traced.pool.prefixes, (p'.seqs id).blockTable[b - 1]? = some e.2.block ∧
      (s.origin (entryLink e)).flatten = tokens.take (b * c.blockSize)

/-- A collision within the reach of a lookup: the blocks before block `b` are cached, and a cached block
with the tokens of block `b` was registered behind another chain with the same hash. -/
def Collision (s : Provenance K) (tokens : List Int) : Prop :=
  ∃ b, (∀ j < b, s.traced.pool.CachedAt (c.spans tokens) j) ∧ ∃ e ∈ s.traced.pool.prefixes,
    (c.spans tokens)[b]? = some e.2.tokens ∧
    Collide (s.origin (entryLink e)).dropLast ((c.spans tokens).take b)

variable {c} {n : Nat} {s : Provenance K}

/-- The invariant of a run. -/
structure Inv (c : PoolSizes) (n : Nat) (s : Provenance K) : Prop where
  traced : Traced.Inv c n s.traced
  nodup : s.traced.pool.LinksNodup
  origin : ∀ x ∈ s.traced.pool.prefixes.map entryLink, ∃ tokens k,
    s.origin x = (c.spans tokens).take (k + 1) ∧ HasLink (c.spans tokens) k x

theorem inv_start [Zero K] (n : Nat) : Inv c n (machine c : Machine (Provenance K) (PoolOp K)).start where
  traced := Traced.inv_start n
  nodup := List.nodup_nil
  origin x hx := by simp [machine, Traced.machine, Pool.create] at hx

/-- Only `register_prefix` adds links. -/
theorem links_sublist (h : Traced.Inv c n s.traced) {op : PoolOp K} (ha : op.Allowed c n s.traced)
    (hop : ∀ id tokens, op ≠ .register id tokens) :
    ((finalState (op.run c) s.traced.pool).prefixes.map entryLink).Sublist
      (s.traced.pool.prefixes.map entryLink) := by
  cases op with
  | reserve id len =>
    refine wp_finalState (P := fun p' : Pool K => (p'.prefixes.map entryLink).Sublist _)
      (wp_mono (wp_reserve len ha h.wf) ?_ ?_)
    · rintro _ p' ⟨-, new, hg, -⟩
      exact hg.prefixes.map entryLink
    · rintro _ p' ⟨-, ⟨new, hg⟩, -⟩
      exact hg.prefixes.map entryLink
  | write id layer start k v len => exact List.Sublist.refl _
  | commit id len => exact List.Sublist.refl _
  | free id =>
    refine wp_finalState (P := fun p' : Pool K => (p'.prefixes.map entryLink).Sublist _)
      (wp_mono (wp_free ha h.wf) ?_ fun _ _ hf => hf.elim)
    rintro _ p' ⟨-, hf⟩
    rw [hf.prefixes]
  | acquire id tokens =>
    refine wp_finalState (P := fun p' : Pool K => (p'.prefixes.map entryLink).Sublist _) ?_
    simp only [PoolOp.run, wp_bind, wp_pure]
    refine wp_mono (wp_acquireSharedPrefix ha.1 tokens h.wf ha.2) ?_ fun _ _ hf => hf.elim
    rintro _ p' ⟨-, -, hacq, -⟩
    rw [map_entryLink_of_map_untick hacq.prefixes]
  | register id tokens => exact absurd rfl (hop id tokens)
  | clear =>
    refine wp_finalState (P := fun p' : Pool K => (p'.prefixes.map entryLink).Sublist _)
      (wp_mono (wp_clearPrefixCache h.wf) ?_ fun _ _ hf => hf.elim)
    rintro _ p' ⟨-, hp'⟩
    rw [hp']
    exact List.nil_sublist _

theorem traced_pool_next (op : PoolOp K) :
    (s.traced.next c op).pool = finalState (op.run c) s.traced.pool := by
  cases op <;> rfl

theorem Inv.register (h : Inv c n s) {id : Nat} {tokens : List Int} (hid : id < n)
    (hlen : tokens.length ≤ (s.traced.pool.seqs id).length) :
    wp (Pool.registerPrefix c id tokens)
      (fun _ p' => p'.LinksNodup ∧ ∀ x ∈ p'.prefixes.map entryLink, ∃ tokens' k,
        s.registerOrigin c tokens x = (c.spans tokens').take (k + 1) ∧ HasLink (c.spans tokens') k x)
      (fun _ _ => False) s.traced.pool := by
  refine wp_mono (wp_and (wp_registerPrefix hid h.traced.wf hlen)
    (wp_registerPrefix_linksNodup h.traced.wf.entries h.nodup)) ?_ fun _ _ hf => hf.1
  rintro _ p' ⟨⟨-, added, hr⟩, hnodup⟩
  refine ⟨hnodup, fun x hx => ?_⟩
  rw [registerOrigin]
  by_cases hold : x ∈ s.traced.pool.prefixes.map entryLink
  · rw [if_pos hold]
    exact h.origin x hold
  · rw [if_neg hold]
    rw [hr.prefixes, List.map_append] at hx
    obtain ⟨e, he, rfl⟩ := List.mem_map.mp ((List.mem_append.mp hx).resolve_left hold)
    obtain ⟨j, -, hspan, hparent, -⟩ := hr.added e he
    have hlink : HasLink (c.spans tokens) j (entryLink e) := ⟨hparent, hspan⟩
    cases hfind : (List.range (c.spans tokens).length).find? fun j =>
        HasLink (c.spans tokens) j (entryLink e) with
    | some k => exact ⟨tokens, k, rfl, by simpa using List.find?_some hfind⟩
    | none =>
      rw [List.find?_eq_none] at hfind
      exact absurd hlink
        (by simpa using hfind j (List.mem_range.mpr (List.getElem?_eq_some_iff.mp hspan).1))

theorem Inv.step [Zero K] (h : Inv c n s) {op : PoolOp K} (ha : op.Allowed c n s.traced) :
    Inv c n ((machine c).next s op) := by
  have htraced := (h.traced.step ha).1
  by_cases hop : ∃ id tokens, op = .register id tokens
  · obtain ⟨id, tokens, rfl⟩ := hop
    have hreg := wp_finalState (P := fun p' : Pool K => p'.LinksNodup ∧ ∀ x ∈ p'.prefixes.map entryLink,
      ∃ tokens' k, s.registerOrigin c tokens x = (c.spans tokens').take (k + 1) ∧
        HasLink (c.spans tokens') k x) (wp_mono (h.register ha.1 ha.2) (fun _ _ hq => hq)
          fun _ _ hf => hf.elim)
    exact ⟨htraced, hreg.1, hreg.2⟩
  · have hsub := links_sublist h.traced ha fun id tokens heq => hop ⟨id, tokens, heq⟩
    have horigin : ((machine c).next s op).origin = s.origin := by
      cases op with
      | register id tokens => exact absurd ⟨id, tokens, rfl⟩ hop
      | _ => rfl
    have hpool : ((machine c).next s op).traced.pool = finalState (op.run c) s.traced.pool :=
      traced_pool_next op
    refine ⟨htraced, ?_, fun x hx => ?_⟩
    · rw [LinksNodup, hpool]
      exact h.nodup.sublist hsub
    · rw [hpool] at hx
      rw [horigin]
      exact h.origin x (hsub.subset hx)

theorem inv_reachable [Zero K]
    (hs : (machine c).Reachable (fun s op => op.Allowed c n s.traced) s) : Inv c n s :=
  hs.invariant (inv_start n) fun _ _ _ h ha => h.step ha

theorem spans_take_inj {tokens tokens' : List Int} {k k' : Nat} (hk : k ≤ (c.spans tokens).length)
    (hk' : k' ≤ (c.spans tokens').length)
    (h : ((c.spans tokens).take k).flatten = ((c.spans tokens').take k').flatten) :
    (c.spans tokens).take k = (c.spans tokens').take k' := by
  have hlens : ∀ (tokens : List Int) (k : Nat), k ≤ (c.spans tokens).length →
      ((c.spans tokens).take k).map List.length = List.replicate k c.blockSize := by
    intro tokens k hk
    rw [List.eq_replicate_iff]
    refine ⟨by simpa using hk, fun m hm => ?_⟩
    obtain ⟨span, hspan, rfl⟩ := List.mem_map.mp hm
    exact c.length_of_mem_spans (List.mem_of_mem_take hspan)
  have hsum := congrArg List.length h
  rw [List.length_flatten, List.length_flatten, hlens _ _ hk, hlens _ _ hk', List.sum_replicate_nat,
    List.sum_replicate_nat] at hsum
  have hkk : k = k' := Nat.eq_of_mul_eq_mul_right c.blockSize_pos hsum
  rw [List.eq_iff_flatten_eq]
  exact ⟨h, by rw [hlens _ _ hk, hlens _ _ hk', hkk]⟩

theorem Inv.acquire (h : Inv c n s) {id : Nat} (tokens : List Int) (hid : id < n)
    (hfresh : s.traced.pool.seqs id = {}) :
    ∃ p', acquireSharedPrefix c id tokens s.traced.pool =
        .ok ((matchChain c s.traced.pool.prefixes (c.spans tokens) 0).length * c.blockSize) p' ∧
      (p'.seqs id).blockTable = matchChain c s.traced.pool.prefixes (c.spans tokens) 0 := by
  obtain ⟨m, p', hrun, rfl, -, hacq, -⟩ :=
    wp_returns (wp_acquireSharedPrefix hid tokens h.traced.wf hfresh)
  exact ⟨p', hrun, by rw [hacq.table, hfresh, List.nil_append]⟩

theorem take_succ_of_hasLink {spans : List (List Int)} {b : Nat} {x : Link} (h : HasLink spans b x) :
    spans.take (b + 1) = spans.take b ++ [x.2] := by
  rw [List.take_add_one, h.2, Option.toList_some]

theorem Inv.origin_of_mem (h : Inv c n s) {e : Hash × PrefixEntry} (he : e ∈ s.traced.pool.prefixes) :
    ∃ tokens k, k < (c.spans tokens).length ∧ HasLink (c.spans tokens) k (entryLink e) ∧
      s.origin (entryLink e) = (c.spans tokens).take (k + 1) ∧
      (s.origin (entryLink e)).dropLast = (c.spans tokens).take k := by
  obtain ⟨tokens, k, horigin, hlink⟩ := h.origin _ (List.mem_map_of_mem he)
  refine ⟨tokens, k, (List.getElem?_eq_some_iff.mp hlink.2).1, hlink, horigin, ?_⟩
  rw [horigin, take_succ_of_hasLink hlink, List.dropLast_concat]

theorem Inv.acquire_getElem? (h : Inv c n s) {id : Nat} (tokens : List Int) (hid : id < n)
    (hfresh : s.traced.pool.seqs id = {}) :
    ∃ m p', acquireSharedPrefix c id tokens s.traced.pool = .ok (m * c.blockSize) p' ∧
      (∀ b < m, ∃ e ∈ s.traced.pool.prefixes, HasLink (c.spans tokens) b (entryLink e) ∧
        (p'.seqs id).blockTable[b]? = some e.2.block) ∧
      ∀ b, (∀ j ≤ b, s.traced.pool.CachedAt (c.spans tokens) j) → b < m := by
  obtain ⟨p', hrun, htable⟩ := h.acquire tokens hid hfresh
  refine ⟨_, p', hrun, fun b hb => ?_, fun b hb => ?_⟩
  · obtain ⟨block, hblock⟩ : ∃ block,
        (matchChain c s.traced.pool.prefixes (c.spans tokens) (chainHash []))[b]? = some block :=
      ⟨_, List.getElem?_eq_getElem hb⟩
    obtain ⟨e, he, hlink, rfl⟩ := matchChain_getElem? hblock
    rw [List.nil_append, List.length_nil, Nat.zero_add] at hlink
    exact ⟨e, he, hlink, by rw [htable]; exact hblock⟩
  · have hcached : ∀ j ≤ b, s.traced.pool.CachedAt ([] ++ c.spans tokens) (([] : List (List Int)).length + j) :=
      fun j hj => by simpa using hb j hj
    exact lt_length_matchChain h.traced.wf.entries hcached

theorem mul_le_of_lt_length_spans {tokens : List Int} {b : Nat} (h : b < (c.spans tokens).length) :
    (b + 1) * c.blockSize ≤ tokens.length := by
  rw [c.length_spans] at h
  exact (Nat.le_div_iff_mul_le c.blockSize_pos).mp h

/-- **When prefix matching is sound.** A lookup hands out blocks registered for the leading tokens of its
argument if and only if it does not reach a collision of the chain hash. -/
theorem sound_iff_not_collision [Zero K] {c : PoolConfig}
    (hs : (machine c).Reachable (fun s op => op.Allowed c n s.traced) s) (id : Nat) (tokens : List Int)
    (hid : id < n) (hfresh : s.traced.pool.seqs id = {}) :
    s.Sound c id tokens ↔ ¬s.Collision c tokens := by
  have h := inv_reachable hs
  obtain ⟨m, p', hrun, hget, hreach⟩ := h.acquire_getElem? tokens hid hfresh
  constructor
  · rintro hsound ⟨b, hcached, e, he, hspan, hne, hhash⟩
    obtain ⟨tokens₁, k, hk, hlink₁, horigin, hinit⟩ := h.origin_of_mem he
    rw [hinit] at hne hhash
    have hb : b < (c.spans tokens).length := (List.getElem?_eq_some_iff.mp hspan).1
    have hlink : HasLink (c.spans tokens) b (entryLink e) := ⟨hlink₁.1.trans hhash, hspan⟩
    -- the lookup reaches block `b`, and `e` is the entry it finds there
    have hlen : b < m := hreach b fun j hj => by
      rcases Nat.lt_or_eq_of_le hj with hj | rfl
      · exact hcached j hj
      · exact ⟨e, he, hlink⟩
    obtain ⟨e', he', -, hflat⟩ := hsound _ p' hrun (b + 1) (Nat.succ_pos b) (Nat.mul_le_mul_right _ hlen)
    obtain ⟨tokens₂, k', hk', hlink₂, horigin', -⟩ := h.origin_of_mem he'
    rw [horigin', ← c.flatten_spans_take tokens (b + 1) (mul_le_of_lt_length_spans hb)] at hflat
    have hchain := spans_take_inj hk' hb hflat
    rw [Nat.succ_eq_add_one, Nat.succ_eq_add_one, take_succ_of_hasLink hlink₂,
      take_succ_of_hasLink hlink] at hchain
    obtain ⟨hheads, hlast⟩ := List.append_inj' hchain rfl
    rw [List.singleton_inj] at hlast
    have heq : e' = e := h.nodup.eq_of_link_eq he' he
      (Prod.ext (by rw [hlink₂.1, hheads, hlink.1]) hlast)
    subst heq
    have hchains := horigin.symm.trans horigin'
    rw [take_succ_of_hasLink hlink₁, take_succ_of_hasLink hlink₂] at hchains
    exact hne ((List.append_inj' hchains rfl).1.trans hheads)
  · intro hno m' p'' hrun' b hb hbm
    rw [hrun] at hrun'
    obtain ⟨rfl, rfl⟩ : _ = m' ∧ p' = p'' := by simpa using hrun'
    have hbm := Nat.le_of_mul_le_mul_right hbm c.blockSize_pos
    obtain ⟨e, he, hlink, hblock⟩ := hget (b - 1) (by omega)
    obtain ⟨tokens₁, k, hk, hlink₁, horigin, hinit⟩ := h.origin_of_mem he
    have hb' : b - 1 < (c.spans tokens).length := (List.getElem?_eq_some_iff.mp hlink.2).1
    -- without a collision the chains in front of the block are the same
    have hchain : (c.spans tokens₁).take k = (c.spans tokens).take (b - 1) := by
      by_contra hne
      refine hno ⟨b - 1, fun j hj => ?_, e, he, hlink.2, ?_⟩
      · obtain ⟨e', he', hlink', -⟩ := hget j (by omega)
        exact ⟨e', he', hlink'⟩
      · rw [hinit]
        exact ⟨hne, hlink₁.1.symm.trans hlink.1⟩
    refine ⟨e, he, hblock, ?_⟩
    have hle := mul_le_of_lt_length_spans hb'
    rw [Nat.sub_add_cancel hb] at hle
    rw [horigin, take_succ_of_hasLink hlink₁, hchain, ← take_succ_of_hasLink hlink, Nat.sub_add_cancel hb,
      c.flatten_spans_take tokens b hle]

/-! ### A collision -/

def rowPool : PoolConfig := ⟨⟨1, 1, 1, 4, Nat.one_pos, Nat.one_pos, Nat.one_pos⟩, by decide⟩

/-- A token whose block hashes to the hash of the empty chain. -/
def nullToken : Int := 0x3608874253b96bd5

/-- The row of a token is the token. Sequence `0` appends a token that hashes to nothing and a second one,
and registers both. -/
def collided : Provenance Int :=
  let m : Machine (Provenance Int) (PoolOp Int) := machine rowPool
  m.next (m.next (m.next (m.next m.start (.reserve 0 2))
    (.write 0 0 0 [[nullToken], [7]] [[nullToken], [7]] 2)) (.commit 0 2)) (.register 0 [nullToken, 7])

theorem collided_reachable :
    (machine rowPool).Reachable (fun s op => op.Allowed rowPool 2 s.traced) collided := by
  refine .next (.next (.next (.next .start Nat.zero_lt_two) ?_) ?_) ?_
  · refine ⟨?_, ?_, ?_, ?_⟩ <;> decide +kernel
  · refine ⟨?_, ?_⟩ <;> decide +kernel
  · refine ⟨?_, ?_⟩ <;> decide +kernel

/-- A fresh sequence with the second token alone is handed the block of the second token behind the first. -/
theorem prefix_match_unsound :
    (machine rowPool).Reachable (fun s op => op.Allowed rowPool 2 s.traced) collided ∧
    (collided.traced.seqs 0).rows 0 = [([nullToken], [nullToken]), ([7], [7])] ∧
    collided.traced.pool.seqs 1 = {} ∧ ¬collided.Sound rowPool 1 [7] := by
  refine ⟨collided_reachable, by decide +kernel, by decide +kernel, fun hsound => ?_⟩
  obtain ⟨p', hrun, htable⟩ := (inv_reachable collided_reachable).acquire [7] (Nat.lt_succ_self 1)
    (by decide +kernel)
  have hchain : matchChain rowPool collided.traced.pool.prefixes (rowPool.spans [7]) 0 = [1] := by
    decide +kernel
  rw [hchain] at hrun htable
  obtain ⟨e, he, hblock, hflat⟩ := hsound _ p' hrun 1 Nat.zero_lt_one le_rfl
  rw [htable] at hblock
  have hnone : ∀ e ∈ collided.traced.pool.prefixes, [1][1 - 1]? = some e.2.block →
      (collided.origin (entryLink e)).flatten ≠ [7].take (1 * rowPool.blockSize) := by
    decide +kernel
  exact hnone e he hblock hflat

theorem sound_iff_not_collision_collided :
    collided.Sound rowPool 1 [7] ↔ ¬collided.Collision rowPool [7] :=
  sound_iff_not_collision collided_reachable 1 [7] (by decide) (by decide +kernel)

end Provenance

end InferenceEngine
