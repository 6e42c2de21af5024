import InferenceEngine.Engine.Readiness
import InferenceEngine.KvCache.PrefixSoundness

/-!
# What the pool holds

The committed rows of a sequence are the keys and values of its context, up to as many tokens as are
committed, and a cached block holds those of a full block of the context of some sequence. Sharing keeps
this when the chain hash tells the chains of blocks that occur apart.
-/

namespace InferenceEngine

open Exec

namespace PoolSizes

variable (c : PoolSizes)

/-- The full blocks of a shorter list are the first of the longer one's. -/
theorem spans_isPrefix {xs ys : List Int} (h : xs <+: ys) : c.spans xs <+: c.spans ys := by
  have hself : ∀ zs : List Int, c.spans (zs.take (xs.length / c.blockSize * c.blockSize)) =
      (c.spans zs).take (xs.length / c.blockSize) ∨ zs.length < xs.length := by
    intro zs
    by_cases hlen : zs.length < xs.length
    · exact .inr hlen
    · exact .inl (c.spans_take zs _ ((Nat.div_mul_le_self _ _).trans (Nat.le_of_not_lt hlen)))
  have hxs := (hself xs).resolve_right (lt_irrefl _)
  have hys := (hself ys).resolve_right (Nat.not_lt.mpr h.length_le)
  have hle := Nat.div_mul_le_self xs.length c.blockSize
  have hall : (c.spans xs).take (xs.length / c.blockSize) = c.spans xs :=
    List.take_of_length_le (c.length_spans xs).le
  rw [hall] at hxs
  obtain ⟨zs, rfl⟩ := h
  rw [List.take_append_of_le_length hle, hxs] at hys
  rw [hys]
  exact List.take_prefix _ _

end PoolSizes

theorem HasLink.of_isPrefix {spans spans' : List (List Int)} {k : Nat} {x : Link} (h : HasLink spans k x)
    (hspans : spans <+: spans') : HasLink spans' k x := by
  obtain ⟨hhash, hspan⟩ := h
  have hk := (List.getElem?_eq_some_iff.mp hspan).1
  obtain ⟨more, rfl⟩ := hspans
  refine ⟨?_, ?_⟩
  · rw [List.take_append_of_le_length hk.le]
    exact hhash
  · rw [List.getElem?_append_left hk]
    exact hspan

theorem EngineSequence.context_advance {K : Type} (seq : EngineSequence K) (token : Int) :
    (seq.advance token).context = seq.context ++ [token] :=
  (List.append_assoc _ _ _).symm

namespace Engine

open EngineState Pool Provenance

variable {W Q K G : Type} [Field K] [LinearOrder K] (E : Engine W Q K G)

/-- The rows of a layer for a list of tokens. -/
abbrev cellsOf (l : Nat) (ids : List Int) : List (Row K × Row K) := E.model.decoder.cells l ids

/-- A chain of full blocks of the tokens of some request. Outputs only grow, so that these are all chains
that have occurred. -/
def Occurs (s : EngineState K G) (chain : List (List Int)) : Prop :=
  ∃ id < s.nextId, chain <+: E.config.spans (s.sequences id).context

/-- Nothing is shared, or the chain hash tells the chains that occur apart. -/
def Apart (s : EngineState K G) : Prop :=
  E.prefixCache = false ∨ Set.InjOn chainHash {chain | E.Occurs s chain}

/-- A cached block holds the rows of a block of some context, and its link is that of the block. -/
def Backed (s : EngineState K G) (p : Pool K) (e : Hash × PrefixEntry) : Prop :=
  ∃ id < s.nextId, ∃ k, HasLink (E.config.spans (s.sequences id).context) k (entryLink e) ∧
    ∀ l < E.model.config.numHiddenLayers, ∀ slot < E.config.blockSize,
      (E.cellsOf l (s.sequences id).context)[k * E.config.blockSize + slot]? =
        some (p.blockCell E.config l e.2.block slot)

/-- What the pool holds. -/
structure Contents (s : EngineState K G) : Prop where
  rows : ∀ id < s.nextId, ∀ l < E.model.config.numHiddenLayers, s.pool.Holds E.config l id
    (E.cellsOf l ((s.sequences id).context.take (s.pool.seqs id).length))
  cached : ∀ e ∈ s.pool.prefixes, E.Backed s s.pool e

/-- The requests are still there, and their contexts have only grown. -/
structure Grows (s s' : EngineState K G) : Prop where
  nextId : s.nextId ≤ s'.nextId
  context : ∀ id < s.nextId, (s.sequences id).context <+: (s'.sequences id).context

variable {E} {s s' : EngineState K G}

theorem Occurs.mono (hg : Grows s s') {chain : List (List Int)} (h : E.Occurs s chain) :
    E.Occurs s' chain := by
  obtain ⟨id, hid, hchain⟩ := h
  exact ⟨id, hid.trans_le hg.nextId, hchain.trans (E.config.spans_isPrefix (hg.context id hid))⟩

theorem Apart.anti (hg : Grows s s') (h : E.Apart s') : E.Apart s :=
  h.imp_right fun hinj => hinj.mono fun _ hchain => Occurs.mono hg hchain

/-- The block of a link ends before its context does. -/
theorem lt_length_of_hasLink {ctx : List Int} {k slot : Nat} {x : Link}
    (h : HasLink (E.config.spans ctx) k x) (hslot : slot < E.config.blockSize) :
    k * E.config.blockSize + slot < ctx.length := by
  have hle := mul_le_of_lt_length_spans (List.getElem?_eq_some_iff.mp h.2).1
  rw [Nat.succ_mul] at hle
  omega

theorem Backed.mono (hg : Grows s s') {p p' : Pool K} {e : Hash × PrefixEntry} (h : E.Backed s p e)
    (hcell : ∀ l, ∀ slot < E.config.blockSize,
      p'.blockCell E.config l e.2.block slot = p.blockCell E.config l e.2.block slot) :
    E.Backed s' p' e := by
  obtain ⟨id, hid, k, hlink, hrows⟩ := h
  refine ⟨id, hid.trans_le hg.nextId, k, hlink.of_isPrefix (E.config.spans_isPrefix (hg.context id hid)), ?_⟩
  intro l hl slot hslot
  rw [hcell l slot hslot, ← hrows l hl slot hslot]
  exact E.model.decoder.cells_getElem?_of_prefix (hg.context id hid) (lt_length_of_hasLink hlink hslot)

/-- **A cached block found for a context holds the rows of that context.** -/
theorem Backed.found {p : Pool K} {e : Hash × PrefixEntry} (h : E.Backed s p e)
    (hinj : Set.InjOn chainHash {chain | E.Occurs s chain}) {id k : Nat} (hid : id < s.nextId)
    (hlink : HasLink (E.config.spans (s.sequences id).context) k (entryLink e)) {l : Nat}
    (hl : l < E.model.config.numHiddenLayers) {slot : Nat} (hslot : slot < E.config.blockSize) :
    (E.cellsOf l (s.sequences id).context)[k * E.config.blockSize + slot]? =
      some (p.blockCell E.config l e.2.block slot) := by
  obtain ⟨id', hid', k', hlink', hrows⟩ := h
  have hk := mul_le_of_lt_length_spans (List.getElem?_eq_some_iff.mp hlink.2).1
  have hk' := mul_le_of_lt_length_spans (List.getElem?_eq_some_iff.mp hlink'.2).1
  -- the blocks in front of the two are the same, and so are the two
  have hchains : (E.config.spans (s.sequences id).context).take k =
      (E.config.spans (s.sequences id').context).take k' :=
    hinj ⟨id, hid, List.take_prefix _ _⟩ ⟨id', hid', List.take_prefix _ _⟩
      (hlink.1.symm.trans hlink'.1)
  have hspans : (E.config.spans (s.sequences id).context).take (k + 1) =
      (E.config.spans (s.sequences id').context).take (k' + 1) := by
    rw [take_succ_of_hasLink hlink, take_succ_of_hasLink hlink', hchains]
  have hkk : k = k' := by
    have hlen := congrArg List.length hchains
    rw [List.length_take, List.length_take, Nat.min_eq_left
      (List.getElem?_eq_some_iff.mp hlink.2).1.le, Nat.min_eq_left
      (List.getElem?_eq_some_iff.mp hlink'.2).1.le] at hlen
    exact hlen
  subst hkk
  have htokens : (s.sequences id).context.take ((k + 1) * E.config.blockSize) =
      (s.sequences id').context.take ((k + 1) * E.config.blockSize) := by
    rw [← E.config.flatten_spans_take _ _ hk, ← E.config.flatten_spans_take _ _ hk', hspans]
  have hlt : k * E.config.blockSize + slot <
      ((s.sequences id).context.take ((k + 1) * E.config.blockSize)).length := by
    rw [List.length_take, Nat.min_eq_left hk, Nat.succ_mul]
    omega
  have hcell := E.model.decoder.cells_getElem?_of_prefix (l := l)
    (List.take_prefix _ (s.sequences id).context) hlt
  rw [htokens] at hlt hcell
  rw [← hrows l hl slot hslot]
  exact hcell.trans
    (E.model.decoder.cells_getElem?_of_prefix (List.take_prefix _ (s.sequences id').context) hlt).symm

namespace Contents

theorem create (rng : G) : Contents E (E.create rng) :=
  ⟨fun id hid => absurd hid (Nat.not_lt_zero id), fun _ he => absurd he List.not_mem_nil⟩

theorem congr (h : Contents E s) (hnextId : s'.nextId = s.nextId)
    (hcontext : ∀ id, (s'.sequences id).context = (s.sequences id).context) (hpool : s'.pool = s.pool) :
    Contents E s' := by
  refine ⟨fun id hid l hl => ?_, fun e he => ?_⟩
  · rw [hpool, hcontext]
    rw [hnextId] at hid
    exact h.rows id hid l hl
  · rw [hpool] at he ⊢
    exact (h.cached e he).mono ⟨hnextId.ge, fun id _ => by rw [hcontext]⟩ fun _ _ _ => rfl

theorem arrive (h : Contents E s) (hs : Inv E s) (request : Request K) :
    Contents E { s.setSequence s.nextId { request } with
      waiting := s.waiting ++ [s.nextId], nextId := s.nextId + 1 } := by
  have hold : ∀ id < s.nextId,
      Function.update s.sequences s.nextId { request } id = s.sequences id := fun id hid =>
    Function.update_of_ne (Nat.ne_of_lt hid) _ _
  refine ⟨fun id hid l hl => ?_, fun e he => ?_⟩
  · simp only [setSequence]
    by_cases hnew : id = s.nextId
    · rw [hnew, hs.wf.fresh _ le_rfl, List.take_zero]
      intro r hr
      simp at hr
    · have hlt := lt_of_le_of_ne (Nat.le_of_lt_succ hid) hnew
      rw [hold id hlt]
      exact h.rows id hlt l hl
  · refine (h.cached e he).mono ⟨Nat.le_succ _, fun id hid => ?_⟩ fun _ _ _ => rfl
    simp only [setSequence, hold id hid]
    exact List.prefix_refl _

theorem enter {admitted : List Nat} (h : Contents E s) (ha : Admitted E admitted s s') :
    Contents E s' := by
  refine h.congr ha.nextId (fun id => ?_) ha.pool
  rw [ha.sequences]
  split <;> rfl

theorem preempt {id : Nat} (h : Contents E s) (hp : Preempted E id s s') : Contents E s' := by
  have hcontext : ∀ i, (s'.sequences i).context = (s.sequences i).context := by
    intro i
    rw [hp.sequences]
    by_cases hi : i = id
    · rw [hi, Function.update_self]
      rfl
    · rw [Function.update_of_ne hi]
  refine ⟨fun i hi l hl => ?_, fun e he => ?_⟩
  · rw [hcontext]
    rw [hp.nextId] at hi
    by_cases hii : i = id
    · rw [hii, hp.freed.self, List.take_zero]
      intro r hr
      simp at hr
    · rw [hp.freed.others i hii]
      exact (h.rows i hi l hl).congr fun r _ => hp.freed.rowAt hii l r
  · rw [hp.freed.prefixes] at he
    refine (h.cached e he).mono ⟨hp.nextId.ge, fun i _ => by rw [hcontext]⟩ fun l slot _ => ?_
    exact cell_congr hp.freed.keys hp.freed.values l _

theorem share {id : Nat} (h : Contents E s) (hs : Inv E s) (hid : id < s.nextId) (hapart : E.Apart s)
    (hsh : Shared E id s s') : Contents E s' := by
  refine ⟨fun i hi l hl => ?_, fun e he => ?_⟩
  · rw [hsh.sequences]
    rw [hsh.nextId] at hi
    by_cases hii : i = id
    swap
    · rw [hsh.acquired.others i hii]
      exact (h.rows i hi l hl).congr fun r _ => hsh.acquired.rowAt hii l r
    subst hii
    by_cases hnil : E.sharedBlocks s i = []
    · have htable := hsh.acquired.table
      have hlength := hsh.length
      rw [hnil, List.append_nil] at htable
      rw [hnil, List.length_nil, Nat.zero_mul, Nat.add_zero] at hlength
      rw [hlength]
      exact (h.rows i hi l hl).congr fun r _ =>
        rowAt_congr hsh.acquired.keys hsh.acquired.values htable l r
    · obtain ⟨hon, hpre, htable⟩ := E.may_of_sharedBlocks_ne hnil
      have hinj := hapart.resolve_left (by rw [hon]; decide)
      have hempty := hs.wf.eq_empty htable
      have htable' := hsh.acquired.table
      have hlength := hsh.length
      rw [hempty, List.nil_append] at htable'
      rw [hempty, Nat.zero_add] at hlength
      rw [hlength]
      intro r hr
      rw [Causal.Decoder.length_cells, List.length_take] at hr
      have hpos := E.config.blockSize_pos
      have hslot := Nat.mod_lt r hpos
      have hblock : r / E.config.blockSize < (E.sharedBlocks s i).length :=
        (Nat.div_lt_iff_lt_mul hpos).mpr (hr.trans_le (Nat.min_le_left _ _))
      -- the block of row `r` is one the lookup found
      have hget := List.getElem?_eq_getElem hblock
      have hmatch : E.sharedBlocks s i = Pool.matchChain E.config s.pool.prefixes
          (E.config.spans (E.cap (s.sequences i).context)) (chainHash []) := if_pos ⟨hon, hpre, htable⟩
      generalize hb : (E.sharedBlocks s i)[r / E.config.blockSize] = block at hget
      have hfound := hget
      rw [hmatch] at hfound
      obtain ⟨e, he, hlink, heb⟩ := matchChain_getElem? hfound
      rw [List.nil_append, List.length_nil, Nat.zero_add] at hlink
      have hlink' := hlink.of_isPrefix (E.config.spans_isPrefix (List.take_prefix _ _))
      have hcell := (h.cached e he).found hinj hid hlink' hl hslot
      have hrow : s'.pool.rowAt E.config l i r =
          s.pool.blockCell E.config l e.2.block (r % E.config.blockSize) := by
        rw [rowAt_eq_blockCell, htable', List.getD_eq_getElem?_getD, hget, Option.getD_some, heb]
        exact cell_congr hsh.acquired.keys hsh.acquired.values l _
      have hdiv : r / E.config.blockSize * E.config.blockSize + r % E.config.blockSize = r := by
        rw [Nat.mul_comm]
        exact Nat.div_add_mod r _
      rw [hdiv] at hcell
      rw [hrow, ← hcell]
      refine (E.model.decoder.cells_getElem?_of_prefix (List.take_prefix _ _) ?_).symm
      rw [List.length_take]
      exact hr
  · obtain ⟨e₀, he₀, -, hparent, htokens, hblock⟩ := exists_mem_of_map_untick hsh.acquired.prefixes he
    have hbacked : E.Backed s' s'.pool e₀ := (h.cached e₀ he₀).mono
      ⟨hsh.nextId.ge, fun i _ => by rw [hsh.sequences]⟩
      fun l slot _ => cell_congr hsh.acquired.keys hsh.acquired.values l _
    obtain ⟨i, hi, k, hlink, hrows⟩ := hbacked
    rw [entryLink, ← hparent, ← htokens] at hlink
    rw [← hblock] at hrows
    exact ⟨i, hi, k, hlink, hrows⟩

end Contents

/-! ### A batch -/

section Batch

variable {chosen : List Nat} {logits : Rows K} {p : Pool K}

/-- What a sequence has been fed: the committed part of its context. -/
def fed (s : EngineState K G) (id : Nat) : List Int :=
  (s.sequences id).context.take (s.pool.seqs id).length

theorem length_le_context (hs : Inv E s) (hserves : E.Serves) {id : Nat} (hid : id ∈ s.running) :
    (s.pool.seqs id).length ≤ (s.sequences id).context.length := by
  have hseq := hs.seq id (hs.running_lt hid)
  cases hpre : (s.sequences id).prefilled with
  | true =>
    have hcommitted := hseq.committed hpre (hs.running_status hid)
    omega
  | false => exact (hseq.behind hserves hpre).le

theorem length_fed (hs : Inv E s) (hserves : E.Serves) {id : Nat} (hid : id ∈ s.running) :
    (fed s id).length = (s.pool.seqs id).length := by
  rw [fed, List.length_take, Nat.min_eq_left (length_le_context hs hserves hid)]

theorem fed_append_stepTokens (hs : Inv E s) {id : Nat} (hid : id ∈ s.running) :
    fed s id ++ (s.sequences id).stepTokens (s.pool.seqs id) = (s.sequences id).context := by
  have hseq := hs.seq id (hs.running_lt hid)
  rw [fed, EngineSequence.stepTokens]
  cases hpre : (s.sequences id).prefilled with
  | false => exact List.take_append_drop _ _
  | true =>
    have hout := hseq.output hpre
    have hcommitted := hseq.committed hpre (hs.running_status hid)
    have hinit : (s.sequences id).context.take (s.pool.seqs id).length =
        (s.sequences id).context.dropLast := by
      rw [List.dropLast_eq_take, ← hcommitted, Nat.add_sub_cancel]
    rw [hinit, if_pos rfl, EngineSequence.context, List.dropLast_append_of_ne_nil hout, List.append_assoc,
      List.getLastD_eq_getLast?, List.getLast?_eq_some_getLast hout, Option.getD_some,
      List.dropLast_append_getLast]

/-- **A batch computes the last logits of every context**, and then the pool holds all of it. -/
theorem Contents.wp_forward (h : Contents E s) (hs : Inv E s) (hready : Ready E s) (hserves : E.Serves)
    (hf : Formed E chosen s) (hne : chosen ≠ []) :
    wp (E.model.forwardBatch E.config (feedItems (s.feeds chosen)))
      (fun logits p => Fed E.config (s.feeds chosen) s.pool p ∧
        logits = chosen.map (fun id => (E.model.logits (s.sequences id).context).getLastD []) ∧
        ∀ id ∈ chosen, ∀ l < E.model.config.numHiddenLayers,
          p.Holds E.config l id (E.cellsOf l (s.sequences id).context))
      (fun _ _ => True) s.pool := by
  have hfeeds : ∀ f ∈ s.feeds chosen, f.1 ∈ s.running ∧
      f.2 = (s.sequences f.1).stepTokens (s.pool.seqs f.1) := by
    intro f hmem
    obtain ⟨id, hid, rfl⟩ := List.mem_map.mp hmem
    exact ⟨hf.sublist.subset hid, rfl⟩
  have hnodup : ((s.feeds chosen).map Prod.fst).Nodup := by
    rw [map_fst_feeds]
    exact hf.sublist.nodup hs.sane.running_nodup
  have hrows := Model.wp_forwardBatch_rows hserves.1 hs.wf (fed s)
    (fun f hmem => hs.running_lt (hfeeds f hmem).1) hnodup (by simpa [feeds] using hne)
    (fun f hmem => by
      rw [(hfeeds f hmem).2]
      exact hready.stepTokens_ok hs hserves (hfeeds f hmem).1)
    (fun f hmem => (length_fed hs hserves (hfeeds f hmem).1).symm)
    (fun f hmem => h.rows f.1 (hs.running_lt (hfeeds f hmem).1)) (hready.needed_le hs hf hne)
  apply wp_mono (wp_and (wp_forwardChosen hs.sane hf.sublist) hrows) ?_ fun _ _ _ => trivial
  rintro logits p ⟨⟨-, hfed, -⟩, rfl, hholds⟩
  refine ⟨hfed, ?_, ?_⟩
  · rw [feeds, List.map_map]
    apply List.map_congr_left
    intro id hid
    rw [Function.comp_apply, fed_append_stepTokens hs (hf.sublist.subset hid)]
  · intro id hid
    have hcells := hholds _ (List.mem_map_of_mem hid)
    rw [fed_append_stepTokens hs (hf.sublist.subset hid)] at hcells
    exact hcells

theorem Ran.grows (hr : Ran E chosen logits p s s') : Grows s s' := by
  refine ⟨hr.nextId.ge, fun id _ => ?_⟩
  by_cases hmem : id ∈ chosen
  · obtain ⟨k, hk⟩ := List.getElem?_of_mem hmem
    obtain ⟨token, hsampled⟩ := hr.sampled hk
    rw [hsampled.seq_eq, EngineSequence.context_advance]
    exact List.prefix_append _ _
  · rw [(hr.others hmem).1]

theorem Contents.ran (h : Contents E s) (hs : Inv E s) (hready : Ready E s) (hf : Formed E chosen s)
    (hne : chosen ≠ []) (hr : Ran E chosen logits p s s') : Contents E s' := by
  have hserves := hr.serves hs.sane hf.sublist hne
  obtain ⟨hfed, -, hholds⟩ := wp_ok (h.wp_forward hs hready hserves hf hne) hr.forward
  have hkeys : s'.pool.keys = p.keys := hr.advanced.keys
  have hvalues : s'.pool.values = p.values := hr.advanced.values
  have hgrows := hr.grows
  refine ⟨fun id hid l hl => ?_, fun e he => ?_⟩
  · rw [hr.nextId] at hid
    by_cases hmem : id ∈ chosen
    · obtain ⟨k, hk⟩ := List.getElem?_of_mem hmem
      obtain ⟨token, hsampled⟩ := hr.sampled hk
      have hlength := hfed.length _ (List.mem_map_of_mem hmem)
      dsimp only at hlength
      rw [← length_fed hs hserves (hf.sublist.subset hmem), ← List.length_append,
        fed_append_stepTokens hs (hf.sublist.subset hmem)] at hlength
      have hblocks := hsampled.blocks_eq
      split at hblocks
      · -- a finished sequence has given its blocks back
        rw [hblocks, List.take_zero]
        intro r hr
        simp at hr
      · rw [hblocks, hlength, hsampled.seq_eq, EngineSequence.context_advance,
          List.take_left]
        exact (hholds id hmem l hl).congr fun r _ =>
          rowAt_congr hkeys hvalues (congrArg SequenceBlocks.blockTable hblocks) l r
    · obtain ⟨hseq, hpool⟩ := hr.others hmem
      have hsame := hfed.others id (by rwa [map_fst_feeds])
      rw [hseq, hpool, hsame]
      refine (h.rows id hid l hl).congr fun r hr' => ?_
      rw [Causal.Decoder.length_cells, List.length_take] at hr'
      rw [rowAt_congr hkeys hvalues (congrArg SequenceBlocks.blockTable hpool) l r]
      exact hfed.kept.committed id l r (hr'.trans_le (Nat.min_le_left _ _))
  · rcases hr.advanced.prefixes e he with hold | ⟨x, hx, hcache, hprefill, j, hblock, hspan, hparent⟩
    · obtain ⟨hin, hcell⟩ := hfed.kept.cached e hold
      refine (h.cached e hin).mono hgrows fun l slot hslot => ?_
      rw [← hcell l slot hslot]
      exact cell_congr hkeys hvalues l _
    · -- the block was cached by a sequence of the batch
      obtain ⟨id, hk, hitem⟩ := mem_zipIdx_items.mp hx
      have hmem := List.mem_of_getElem? hk
      have hid := hs.running_lt (hf.sublist.subset hmem)
      rw [hitem] at hblock hspan hparent hprefill
      have hctx : (E.item s id).prefillCtx = (s.sequences id).context := by
        have hpre : (!(s.sequences id).prefilled) = true := hprefill
        rw [item, hpre, hcache]
        rfl
      rw [hctx] at hspan hparent
      have hlink : HasLink (E.config.spans (s.sequences id).context) j (entryLink e) := ⟨hparent, hspan⟩
      refine ⟨id, hgrows.nextId.trans_lt' hid, j,
        hlink.of_isPrefix (E.config.spans_isPrefix (hgrows.context id hid)), fun l hl slot hslot => ?_⟩
      have hlt := lt_length_of_hasLink hlink hslot
      have hrow := hholds id hmem l hl (j * E.config.blockSize + slot)
        (by rwa [Causal.Decoder.length_cells])
      have hdiv : (j * E.config.blockSize + slot) / E.config.blockSize = j := by
        rw [Nat.mul_comm, Nat.mul_add_div E.config.blockSize_pos, Nat.div_eq_of_lt hslot, Nat.add_zero]
      have hmod : (j * E.config.blockSize + slot) % E.config.blockSize = slot := by
        rw [Nat.mul_comm, Nat.mul_add_mod, Nat.mod_eq_of_lt hslot]
      have hblock : (p.seqs id).blockTable[j]? = some e.2.block := hblock
      rw [rowAt_eq_blockCell, hdiv, hmod, List.getD_eq_getElem?_getD, hblock, Option.getD_some] at hrow
      rw [E.model.decoder.cells_getElem?_of_prefix (hgrows.context id hid) hlt]
      refine hrow.trans (congrArg some ?_)
      exact (cell_congr hkeys hvalues l _).symm

end Batch

end Engine

end InferenceEngine
