import CamlInterp.SkipListProofs

/-! # A skip list is an ordered map

    Insertion, removal and the searches of `runtime/skiplist.c` on a list whose
    pointers are those of its cells (`Rep`), and from them any sequence of
    calls: the answers are those of a map from keys to data. -/

namespace CamlSkipList

/-! ## Insertion -/

/-- A word whose low bits are all that is set gives a level within as many steps. -/
theorem levelOf_le {n : Nat} {r : BitVec 32} (h : r <<< (2 * n) = 0#32) :
    ∃ l ≤ n, levelOf (n + 1) r = some l := by
  induction n generalizing r with
  | zero =>
      have hr : r = 0#32 := by simpa using h
      subst hr
      exact ⟨0, Nat.le_refl _, by decide⟩
  | succ n ih =>
      rw [levelOf]
      split
      · have hr : (r <<< 2) <<< (2 * n) = 0#32 := by
          rw [← BitVec.shiftLeft_add, ← h]
          congr 1
          omega
        obtain ⟨l, hl, heq⟩ := ih hr
        exact ⟨l + 1, Nat.succ_le_succ hl, by rw [heq]; rfl⟩
      · exact ⟨0, Nat.zero_le _, rfl⟩

/-- The assertion of `random_level`: there are 16 pairs of bits. -/
theorem randomLevel_lt (seed : BitVec 32) :
    ∃ level seed', randomLevel seed = some (level, seed') ∧ level < numLevels := by
  obtain ⟨l, hl, heq⟩ := levelOf_le (n := 16) (r := seed * 69069#32 + 25173#32) (by simp)
  refine ⟨l, seed * 69069#32 + 25173#32, ?_, Nat.lt_succ_of_le hl⟩
  unfold randomLevel
  dsimp only
  rw [show numLevels = 16 + 1 from rfl, heq]
  rfl

/-- A pointer of a cell changes at a level where the cell is not linked. -/
theorem Linked.setUnlinked {st : State} {nd : Node} {l r : List Node} {i : Nat} (v : Link)
    (h : Linked st (l ++ nd :: r)) (hno : ¬ nd.At i) :
    Linked (st.setForward (.cell nd.addr) i v) (l ++ nd :: r) := by
  have hother := (nodup_middle.mp h.addrs).1
  obtain ⟨c, hcell, hkey, hdata, hlen, hf⟩ := h.chain.holds
  refine h.replace (fun _ => .rfl) rfl rfl ?_ rfl ?_
  · refine ⟨_, State.setForward_cell hcell i v, hkey, hdata, ?_, fun j hj => ?_⟩
    · rw [List.length_set]
      exact hlen
    · have hji : i ≠ j := fun heq => hno (heq.symm ▸ hj)
      rw [List.getElem?_set_ne hji]
      exact hf j hj
  · exact fun x hx => State.setForward_other fun heq => hother x hx (Place.cell.inj heq).symm

/-- What the levels below `i` being done means for the cell that is inserted. -/
theorem linkLevels_linked {a : Addr} {key data k i : Nat} {l r : List Node} {st : State}
    (h : Linked st (l ++ ⟨a, key, data, 0, i⟩ :: r)) (hk : i + k ≤ numLevels)
    (hlen : ∀ c, st.cells a = some c → i + k ≤ c.forward.length) :
    ∃ st', linkLevels a i ((List.range' i k).map fun j => predAt j .head l) st = some st' ∧
      Linked st' (l ++ ⟨a, key, data, 0, i + k⟩ :: r) ∧ st'.sk.level = st.sk.level ∧
      st'.seed = st.seed ∧
      ∀ b, (∀ x ∈ l, x.addr ≠ b) → b ≠ a → st'.cells b = st.cells b := by
  induction k generalizing i st with
  | zero => exact ⟨st, rfl, h, rfl, rfl, fun _ _ _ => rfl⟩
  | succ k ih =>
      have hi : i < numLevels := by omega
      have hno : ¬ (⟨a, key, data, 0, i⟩ : Node).At i := fun hat => Nat.lt_irrefl _ hat.2
      have hpred := h.forwardAt_pred hi
      rw [nextAt, if_neg hno] at hpred
      have h1 := h.setUnlinked (nextAt i r) hno
      obtain ⟨c, hcell, hkey, hdata, -, hf⟩ := h.chain.holds
      have hc : i + (k + 1) ≤ c.forward.length := hlen c hcell
      have hnd : Holds (st.setForward (.cell a) i (nextAt i r)) ⟨a, key, data, 0, i + 1⟩ r := by
        refine ⟨_, State.setForward_cell hcell i _, hkey, hdata, ?_, fun j hj => ?_⟩
        · rw [List.length_set]
          show i + 1 ≤ _
          omega
        · by_cases hji : j = i
          · subst hji
            exact List.getElem?_set_self (by omega)
          · rw [List.getElem?_set_ne (Ne.symm hji)]
            have hlt : j < i + 1 := hj.2
            exact hf j ⟨Nat.zero_le _, show j < i by omega⟩
      have hrel : Relinks i ⟨a, key, data, 0, i⟩ ⟨a, key, data, 0, i + 1⟩ := by
        refine ⟨rfl, fun j hj => ?_⟩
        unfold Node.At
        dsimp only
        omega
      have h2 := h1.relink hrel hnd hi (show i + 1 ≤ _ by omega)
      have hnext : nextAt i (⟨a, key, data, 0, i + 1⟩ :: r) = some a :=
        if_pos ⟨Nat.zero_le _, Nat.lt_succ_self _⟩
      rw [hnext] at h2
      have hother : ∀ b, (∀ x ∈ l, x.addr ≠ b) → b ≠ a →
          ((st.setForward (.cell a) i (nextAt i r)).setForward (predAt i .head l) i
            (some a)).cells b = st.cells b := by
        intro b hb hba
        rw [State.setForward_other (predAt_ne i hb),
          State.setForward_other fun heq => hba (Place.cell.inj heq).symm]
      have hlen2 : ∀ c', ((st.setForward (.cell a) i (nextAt i r)).setForward (predAt i .head l) i
          (some a)).cells a = some c' → i + 1 + k ≤ c'.forward.length := by
        intro c' hc'
        have hne : predAt i .head l ≠ .cell a := predAt_ne i fun y hy =>
          (nodup_middle.mp h.addrs).1 y (List.mem_append_left _ hy)
        rw [State.setForward_other hne, State.setForward_cell hcell] at hc'
        obtain rfl := Option.some.inj hc'
        show _ ≤ (c.forward.set i _).length
        rw [List.length_set]
        omega
      obtain ⟨st', heq, hl', hlev, hseed, hfr⟩ := ih h2 (by omega) hlen2
      have hadd : i + 1 + k = i + (k + 1) := by omega
      rw [hadd] at hl'
      refine ⟨st', ?_, hl', hlev.trans ?_, hseed.trans ?_, fun b hb hba =>
        (hfr b hb hba).trans (hother b hb hba)⟩
      · rw [List.range'_succ, List.map_cons, linkLevels, hpred]
        exact heq
      · cases predAt i .head l <;> rfl
      · cases predAt i .head l <;> rfl

/-- The list is split where the keys begin to be at least `key`, or above it. -/
theorem Rep.split {st : State} {nodes : List Node} (h : Rep st nodes) (stop : Nat → Bool)
    (hmono : ∀ {j k}, j ≤ k → stop j → stop k) :
    ∃ L R, nodes = L ++ R ∧ (∀ nd ∈ L, ¬ stop nd.key) ∧ ∀ nd ∈ R, stop nd.key := by
  refine ⟨nodes.takeWhile fun nd => !stop nd.key, nodes.dropWhile fun nd => !stop nd.key,
    List.takeWhile_append_dropWhile.symm, ?_, ?_⟩
  · intro nd hnd
    simpa using List.mem_takeWhile_imp hnd
  · intro nd hnd
    have hsorted := h.sorted
    rw [← List.takeWhile_append_dropWhile (p := fun nd => !stop nd.key) (l := nodes)] at hsorted
    have hR := (List.pairwise_append.mp hsorted).2.1
    cases hd : nodes.dropWhile fun nd => !stop nd.key with
    | nil =>
        rw [hd] at hnd
        exact absurd hnd List.not_mem_nil
    | cons x R =>
        have hx : stop x.key = true := by
          have hne : nodes.dropWhile (fun nd => !stop nd.key) ≠ [] := by simp [hd]
          have h1 := List.head_dropWhile_not (fun nd : Node => !stop nd.key) hne
          simpa [hd] using h1
        rw [hd] at hnd hR
        rcases List.mem_cons.mp hnd with rfl | hnd
        · exact hx
        · exact hmono (Nat.le_of_lt ((List.pairwise_cons.mp hR).1 nd hnd)) hx

theorem not_le_mono (key : Nat) {j k : Nat} (hjk : j ≤ k) (hj : decide (key ≤ j) = true) :
    decide (key ≤ k) = true :=
  decide_eq_true (Nat.le_trans (of_decide_eq_true hj) hjk)

/-- The search of `caml_skiplist_insert` and `caml_skiplist_remove`. -/
theorem Rep.descend {st : State} {L R : List Node} (h : Rep st (L ++ R)) (stop : Nat → Bool)
    (hL : ∀ nd ∈ L, ¬ stop nd.key) (hR : ∀ nd ∈ R, stop nd.key) {n : Nat}
    (hn : L.length + numLevels ≤ n) :
    CamlSkipList.descend st stop n st.sk.level .head [] = some (predAt 0 .head L,
      (List.range (st.sk.level + 1)).map fun j => predAt j .head L) := by
  have hlev := h.level
  have h1 := descend_eq [] [] h .head hlev hL hR (n := n)
    (by unfold numLevels at hlev hn; omega)
  rwa [List.append_nil] at h1

theorem Rep.head_right {st : State} {L R : List Node} (h : Rep st (L ++ R)) :
    st.forwardAt (predAt 0 .head L) 0 = some (R.head?.map Node.addr) := by
  rw [h.linked.forwardAt_pred (by decide)]
  cases R with
  | nil => rfl
  | cons nd R =>
      obtain ⟨hlo, hhi, -⟩ := h.whole nd (by simp)
      rw [nextAt, if_pos ⟨Nat.le_of_eq hlo, hhi⟩]
      rfl

/-- The new cell is threaded in at every level up to its own. -/
theorem insertCell_rep {st : State} {L R : List Node} {a : Addr} {key data : Nat}
    (h : Rep st (L ++ R)) (hL : ∀ nd ∈ L, nd.key < key) (hR : ∀ nd ∈ R, key < nd.key)
    (ha : st.cells a = none) :
    ∃ hi st', insertCell a key data
        ((List.range (st.sk.level + 1)).map fun j => predAt j .head L) st = some st' ∧
      Rep st' (L ++ ⟨a, key, data, 0, hi⟩ :: R) ∧
      ∀ b, (∀ x ∈ L, x.addr ≠ b) → b ≠ a → st'.cells b = st.cells b := by
  obtain ⟨level, seed, hrand, hlt⟩ := randomLevel_lt st.seed
  -- the predecessors at all levels up to the new one
  have hupdate : ((List.range (st.sk.level + 1)).map (fun j => predAt j .head L) ++
      List.replicate (level - st.sk.level) Place.head).take (level + 1) =
      (List.range' 0 (level + 1)).map fun j => predAt j .head L := by
    have hfar : ∀ j, st.sk.level < j → predAt j .head L = .head := by
      intro j hj
      refine predAt_of_none ?_ _
      cases hn : nextAt j L with
      | none => rfl
      | some b =>
          obtain ⟨l1, nd, l2, rfl, -, hat, -⟩ := nextAt_split hn
          have hw := (h.whole nd (by simp)).2.2
          have := hat.2
          omega
    have hrep : List.replicate (level - st.sk.level) Place.head =
        (List.range' (st.sk.level + 1) (level - st.sk.level)).map fun j => predAt j .head L := by
      symm
      rw [List.eq_replicate_iff]
      refine ⟨by simp, fun e he => ?_⟩
      obtain ⟨j, hj, rfl⟩ := List.mem_map.mp he
      exact hfar j (List.mem_range'_1.mp hj).1
    have happ := List.range'_append_1 (s := 0) (m := st.sk.level + 1) (n := level - st.sk.level)
    have htake := List.range'_append_1 (s := 0) (m := level + 1)
      (n := st.sk.level + 1 + (level - st.sk.level) - (level + 1))
    rw [Nat.zero_add] at happ htake
    rw [Nat.add_sub_cancel' (by omega)] at htake
    rw [hrep, List.range_eq_range', ← List.map_append, happ, ← List.map_take, ← htake,
      List.take_left' List.length_range']
  -- the new cell is put in unlinked
  have hfresh : ∀ x ∈ L ++ R, x.addr ≠ a := by
    intro x hx heq
    obtain ⟨c, hc⟩ := h.linked.chain.holds_mem hx
    rw [heq, ha] at hc
    cases hc
  let st0 : State :=
    { st with sk := { st.sk with level := max st.sk.level level }, seed := seed }
  let st1 := st0.setCell a (some ⟨key, data, List.replicate (level + 1) none⟩)
  have hcell : st1.cells a = some ⟨key, data, List.replicate (level + 1) none⟩ :=
    State.setCell_same ..
  have hnode : ∀ j, ¬ (⟨a, key, data, 0, 0⟩ : Node).At j := fun j hj => Nat.not_lt_zero _ hj.2
  have h1 : Linked st1 (L ++ ⟨a, key, data, 0, 0⟩ :: R) := by
    have hchain : Chain st1 (L ++ R) :=
      h.linked.chain.congr fun x hx => State.setCell_other (hfresh x hx)
    refine ⟨h.linked.length, fun j hj => ?_, hchain.put hnode ?_, ?_, ?_⟩
    · rw [nextAt_unlinked hnode]
      exact h.linked.head j hj
    · exact ⟨_, hcell, rfl, rfl, Nat.zero_le _, fun j hj => absurd hj (hnode j)⟩
    · exact nodup_middle.mpr ⟨hfresh, h.linked.addrs⟩
    · intro x hx
      rw [List.mem_append, List.mem_cons] at hx
      rcases hx with hx | rfl | hx
      · exact h.linked.below _ (List.mem_append_left _ hx)
      · exact Nat.zero_le _
      · exact h.linked.below _ (List.mem_append_right _ hx)
  obtain ⟨st', heq, hl', hlev, -, hfr⟩ := linkLevels_linked (k := level + 1) h1
    (by omega) (by
      intro c hc
      rw [hcell] at hc
      obtain rfl := Option.some.inj hc
      rw [List.length_replicate, Nat.zero_add])
  rw [Nat.zero_add] at hl'
  refine ⟨level + 1, st', ?_, ⟨hl', ?_, ?_, ?_⟩, ?_⟩
  · unfold insertCell
    rw [hrand]
    show linkLevels a 0 (List.take (level + 1) _) st1 = _
    rw [hupdate]
    exact heq
  · intro x hx
    rw [hlev]
    show x.lo = 0 ∧ 0 < x.hi ∧ x.hi ≤ max st.sk.level level + 1
    rw [List.mem_append, List.mem_cons] at hx
    have hold : x ∈ L ++ R → x.lo = 0 ∧ 0 < x.hi ∧ x.hi ≤ max st.sk.level level + 1 := by
      intro hm
      obtain ⟨hw1, hw2, hw3⟩ := h.whole _ hm
      exact ⟨hw1, hw2, by omega⟩
    rcases hx with hx | rfl | hx
    · exact hold (List.mem_append_left _ hx)
    · exact ⟨rfl, Nat.succ_pos _, show level + 1 ≤ _ by omega⟩
    · exact hold (List.mem_append_right _ hx)
  · rw [hlev]
    show max st.sk.level level < _
    have := h.level
    omega
  · have hs := List.pairwise_append.mp h.sorted
    refine List.pairwise_append.mpr ⟨hs.1, List.pairwise_cons.mpr ⟨fun x hx => hR x hx, hs.2.1⟩, ?_⟩
    intro x hx y hy
    rcases List.mem_cons.mp hy with rfl | hy
    · exact hL x hx
    · exact hs.2.2 x hx y hy
  · exact fun b hb hba => (hfr b hb hba).trans (State.setCell_other hba)

/-- What the nodes say about a key. -/
def lookup : List Node → Nat → Option Nat
  | [], _ => none
  | nd :: rest, k => if nd.key = k then some nd.data else lookup rest k

theorem lookup_append (L R : List Node) (k : Nat) :
    lookup (L ++ R) k = (lookup L k).or (lookup R k) := by
  induction L with
  | nil => rfl
  | cons nd L ih =>
      rw [List.cons_append, lookup, lookup]
      split
      · rfl
      · exact ih

theorem lookup_none {l : List Node} {k : Nat} (h : ∀ nd ∈ l, nd.key ≠ k) : lookup l k = none := by
  induction l with
  | nil => rfl
  | cons nd l ih =>
      rw [lookup, if_neg (h nd (List.mem_cons_self ..))]
      exact ih fun x hx => h x (List.mem_cons_of_mem _ hx)

theorem lookup_append_left {L R : List Node} {k : Nat} (h : ∀ nd ∈ L, nd.key ≠ k) :
    lookup (L ++ R) k = lookup R k := by
  rw [lookup_append, lookup_none h]
  rfl

/-- The keys behind a key. -/
theorem Rep.above {st : State} {L R : List Node} {nd : Node} (h : Rep st (L ++ nd :: R)) {key : Nat}
    (hlt : key < nd.key) : ∀ x ∈ nd :: R, key < x.key := by
  have hs := List.pairwise_cons.mp (List.pairwise_append.mp h.sorted).2.1
  intro x hx
  rcases List.mem_cons.mp hx with rfl | hx
  · exact hlt
  · exact Nat.lt_trans hlt (hs.1 x hx)

/-- Cells outside the list, and other than `a`, are as they were. -/
def Frame (st st' : State) (nodes : List Node) (a : Addr) : Prop :=
  ∀ b, (∀ x ∈ nodes, x.addr ≠ b) → b ≠ a → st'.cells b = st.cells b

/-- `caml_skiplist_insert` adds a binding or changes its data, and says which. -/
theorem insert_rep {st : State} {nodes : List Node} {a : Addr} (key data : Nat) {n : Nat}
    (h : Rep st nodes) (ha : st.cells a = none) (hn : nodes.length + numLevels ≤ n) :
    ∃ st' nodes', insert n a key data st = some ((lookup nodes key).isSome, st') ∧
      Rep st' nodes' ∧
      (∀ k, lookup nodes' k = if k = key then some data else lookup nodes k) ∧
      (∀ x ∈ nodes', x.addr = a ∨ ∃ y ∈ nodes, y.addr = x.addr) ∧ Frame st st' nodes a := by
  obtain ⟨L, R, rfl, hL, hR⟩ := h.split (fun k => decide (key ≤ k)) (not_le_mono key)
  have hdesc := h.descend (fun k => decide (key ≤ k)) hL hR (n := n)
    (by rw [List.length_append] at hn; omega)
  have hLlt : ∀ nd ∈ L, nd.key < key := fun nd hnd => by simpa using hL nd hnd
  have hRle : ∀ nd ∈ R, key ≤ nd.key := fun nd hnd => of_decide_eq_true (hR nd hnd)
  have hLne : ∀ nd ∈ L, nd.key ≠ key := fun nd hnd => Nat.ne_of_lt (hLlt nd hnd)
  have hnew (hRlt : ∀ nd ∈ R, key < nd.key) :
      ∃ st' nodes', insertCell a key data
          ((List.range (st.sk.level + 1)).map fun j => predAt j .head L) st = some st' ∧
        Rep st' nodes' ∧ lookup (L ++ R) key = none ∧
        (∀ k, lookup nodes' k = if k = key then some data else lookup (L ++ R) k) ∧
        (∀ x ∈ nodes', x.addr = a ∨ ∃ y ∈ L ++ R, y.addr = x.addr) ∧
        Frame st st' (L ++ R) a := by
    obtain ⟨hi, st', heq, hrep, hfr⟩ := insertCell_rep h hLlt hRlt ha
    refine ⟨st', _, heq, hrep, ?_, fun k => ?_, fun x hx => ?_, fun b hb => hfr b fun x hx =>
      hb x (List.mem_append_left _ hx)⟩
    · refine lookup_none fun nd hnd => ?_
      rcases List.mem_append.mp hnd with hnd | hnd
      · exact hLne nd hnd
      · exact Nat.ne_of_gt (hRlt nd hnd)
    · by_cases hk : k = key
      · subst hk
        rw [if_pos rfl, lookup_append_left hLne, lookup, if_pos rfl]
      · rw [if_neg hk, lookup_append, lookup_append, lookup, if_neg (Ne.symm hk)]
    · rw [List.mem_append, List.mem_cons] at hx
      rcases hx with hx | rfl | hx
      · exact .inr ⟨x, List.mem_append_left _ hx, rfl⟩
      · exact .inl rfl
      · exact .inr ⟨x, List.mem_append_right _ hx, rfl⟩
  have hhead := h.head_right
  unfold insert
  rw [hdesc]
  cases R with
  | nil =>
      obtain ⟨st', nodes', heq, hrep, hnone, hlook, hmem, hfr⟩ :=
        hnew fun _ hm => absurd hm List.not_mem_nil
      refine ⟨st', nodes', ?_, hrep, hlook, hmem, hfr⟩
      simp only [Option.bind_eq_bind, Option.bind_some, hhead, hnone]
      simp [heq]
  | cons nd R =>
      obtain ⟨c, hcell, hkey, hdata, hlen, hf⟩ := h.linked.chain.holds
      by_cases hk : nd.key = key
      · refine ⟨st.setCell nd.addr (some { c with data := data }),
          L ++ { nd with data := data } :: R, ?_, ⟨?_, ?_, h.level, ?_⟩, fun k => ?_,
          fun x hx => .inr ?_, ?_⟩
        · rw [lookup_append_left hLne, lookup, if_pos hk]
          simp [hhead, hcell, hkey, hk]
        · refine h.linked.replace (fun _ => .rfl) rfl rfl ?_ rfl ?_
          · exact ⟨_, State.setCell_same .., hkey, rfl, hlen, hf⟩
          · exact fun x hx => State.setCell_other ((nodup_middle.mp h.linked.addrs).1 x hx)
        · intro x hx
          rw [List.mem_append, List.mem_cons] at hx
          rcases hx with hx | rfl | hx
          · exact h.whole _ (List.mem_append_left _ hx)
          · exact h.whole nd (by simp)
          · exact h.whole _ (List.mem_append_right _ (List.mem_cons_of_mem _ hx))
        · have hs := h.sorted
          rw [List.pairwise_append, List.pairwise_cons] at hs ⊢
          refine ⟨hs.1, hs.2.1, fun x hx y hy => ?_⟩
          rcases List.mem_cons.mp hy with rfl | hy
          · exact hs.2.2 x hx nd (List.mem_cons_self ..)
          · exact hs.2.2 x hx y (List.mem_cons_of_mem _ hy)
        · rw [lookup_append, lookup_append, lookup, lookup]
          by_cases hkk : k = key
          · subst hkk
            rw [lookup_none hLne, if_pos hk, if_pos rfl]
            rfl
          · have hne : nd.key ≠ k := fun heq => hkk (heq.symm.trans hk)
            rw [if_neg hne, if_neg hne, if_neg hkk]
        · rw [List.mem_append, List.mem_cons] at hx
          rcases hx with hx | rfl | hx
          · exact ⟨x, List.mem_append_left _ hx, rfl⟩
          · exact ⟨nd, by simp, rfl⟩
          · exact ⟨x, by simp [hx], rfl⟩
        · intro b hb _
          exact State.setCell_other fun heq => hb nd (by simp) heq.symm
      · have hlt : key < nd.key := Nat.lt_of_le_of_ne (hRle nd (List.mem_cons_self ..)) (Ne.symm hk)
        obtain ⟨st', nodes', heq, hrep, hnone, hlook, hmem, hfr⟩ := hnew (h.above hlt)
        refine ⟨st', nodes', ?_, hrep, hlook, hmem, hfr⟩
        rw [hnone]
        simp [hhead, hcell, hkey, hk, heq]

/-! ## Deletion -/

/-- Where no cell has the address, no pointer is to it. -/
theorem nextAt_ne {i : Nat} {l : List Node} {a : Addr} (h : ∀ x ∈ l, x.addr ≠ a) :
    nextAt i l ≠ some a := by
  intro heq
  obtain ⟨l1, nd, l2, rfl, -, -, ha⟩ := nextAt_split heq
  exact h nd (by simp) ha

/-- `nd`, no longer linked below level `i`. -/
def Node.above (nd : Node) (i : Nat) : Node := { nd with lo := min i nd.hi }

/-- A cell is unlinked at some levels, from the lowest one up. -/
theorem unlinkLevels_linked {nd : Node} {k i : Nat} {l r : List Node} {st : State}
    (h : Linked st (l ++ nd.above i :: r)) (hk : i + k ≤ numLevels) :
    ∃ st', unlinkLevels nd.addr i ((List.range' i k).map fun j => predAt j .head l) st = some st' ∧
      Linked st' (l ++ nd.above (i + k) :: r) ∧ st'.sk.level = st.sk.level ∧
      ∀ b, (∀ x ∈ l, x.addr ≠ b) → st'.cells b = st.cells b := by
  induction k generalizing i st with
  | zero => exact ⟨st, rfl, h, rfl, fun _ _ => rfl⟩
  | succ k ih =>
      have hi : i < numLevels := by omega
      have hadd : i + 1 + k = i + (k + 1) := by omega
      have hpred := h.forwardAt_pred hi
      rw [List.range'_succ, List.map_cons, unlinkLevels, hpred]
      by_cases hlt : i < nd.hi
      · have hat : (nd.above i).At i := ⟨Nat.min_le_left .., hlt⟩
        have hnot : ¬ (nd.above (i + 1)).At i := by
          have : min (i + 1) nd.hi = i + 1 := Nat.min_eq_left hlt
          intro hat'
          have := hat'.1
          show False
          simp only [Node.above] at this
          omega
        obtain ⟨c, hcell, hkey, hdata, hlen, hf⟩ := h.chain.holds
        have hown : st.forwardAt (.cell nd.addr) i = some (nextAt i r) := by
          show (st.cells (nd.above i).addr).bind _ = _
          rw [hcell]
          exact hf i hat
        have hrel : Relinks i (nd.above i) (nd.above (i + 1)) := by
          refine ⟨rfl, fun j hj => ?_⟩
          simp only [Node.At, Node.above]
          omega
        have hnd : Holds st (nd.above (i + 1)) r := by
          refine ⟨c, hcell, hkey, hdata, hlen, fun j hj => ?_⟩
          have hne : j ≠ i := fun heq => hnot (heq ▸ hj)
          exact hf j ((hrel.other j hne).mp hj)
        have h1 := h.relink hrel hnd hi (h.below (nd.above i) (by simp))
        rw [nextAt, if_neg hnot] at h1
        obtain ⟨st', heq, hl', hlev, hfr⟩ := ih h1 (by omega)
        rw [hadd] at hl'
        refine ⟨st', ?_, hl', hlev.trans ?_, fun b hb => (hfr b hb).trans ?_⟩
        · have haddr : (nd.above i).addr = nd.addr := rfl
          rw [nextAt, if_pos hat, hown, haddr]
          simpa using heq
        · cases predAt i .head l <;> rfl
        · exact State.setForward_other (predAt_ne i hb)
      · have hnot : ¬ (nd.above i).At i := fun hat => hlt hat.2
        have hne : nextAt i r ≠ some nd.addr := nextAt_ne fun x hx =>
          (nodup_middle.mp h.addrs).1 x (List.mem_append_right _ hx)
        have hsame : nd.above i = nd.above (i + 1) := by
          simp only [Node.above]
          congr 1
          omega
        rw [hsame] at h
        obtain ⟨st', heq, hl', hlev, hfr⟩ := ih h (by omega)
        rw [hadd] at hl'
        refine ⟨st', ?_, hl', hlev, hfr⟩
        rw [nextAt, if_neg hnot]
        simpa [hne] using heq

/-- The level comes down to where a cell is linked. -/
theorem correctLevel_eq {forward : List Link} {nodes : List Node} (level : Nat)
    (hf : ∀ i < numLevels, forward[i]? = some (nextAt i nodes))
    (hlo : ∀ nd ∈ nodes, nd.lo = 0 ∧ nd.hi ≤ level + 1) (hlev : level < numLevels) :
    ∃ level', correctLevel forward level = some level' ∧ level' ≤ level ∧
      ∀ nd ∈ nodes, nd.hi ≤ level' + 1 := by
  induction level with
  | zero => exact ⟨0, rfl, Nat.le_refl _, fun nd hnd => (hlo nd hnd).2⟩
  | succ level ih =>
      rw [correctLevel, hf _ hlev]
      cases hn : nextAt (level + 1) nodes with
      | some a => exact ⟨level + 1, rfl, Nat.le_refl _, fun nd hnd => (hlo nd hnd).2⟩
      | none =>
          have hlow : ∀ nd ∈ nodes, nd.lo = 0 ∧ nd.hi ≤ level + 1 := by
            intro nd hnd
            refine ⟨(hlo nd hnd).1, ?_⟩
            by_contra hgt
            obtain ⟨l1, l2, rfl⟩ := List.append_of_mem hnd
            have hat : nd.At (level + 1) :=
              ⟨(hlo nd hnd).1 ▸ Nat.zero_le _, Nat.lt_of_not_le hgt⟩
            rw [nextAt_append, nextAt, if_pos hat] at hn
            cases h1 : nextAt (level + 1) l1 <;> rw [h1] at hn <;> cases hn
          obtain ⟨level', heq, hle, hhi⟩ := ih hlow (Nat.lt_of_succ_lt hlev)
          exact ⟨level', heq, Nat.le_succ_of_le hle, hhi⟩

/-- `caml_skiplist_remove` takes a binding out, if there is one. -/
theorem remove_rep {st : State} {nodes : List Node} (key : Nat) {n : Nat} (h : Rep st nodes)
    (hn : nodes.length + numLevels ≤ n) :
    ∃ st' nodes', remove n key st = some ((lookup nodes key).isSome, st') ∧ Rep st' nodes' ∧
      (∀ k, lookup nodes' k = if k = key then none else lookup nodes k) ∧
      nodes' = nodes.filter (fun x => x.key ≠ key) ∧
      ∀ b, (∀ x ∈ nodes, x.addr ≠ b) → st'.cells b = st.cells b := by
  obtain ⟨L, R, rfl, hL, hR⟩ := h.split (fun k => decide (key ≤ k)) (not_le_mono key)
  have hdesc := h.descend (fun k => decide (key ≤ k)) hL hR (n := n)
    (by rw [List.length_append] at hn; omega)
  have hLlt : ∀ nd ∈ L, nd.key < key := fun nd hnd => by simpa using hL nd hnd
  have hRle : ∀ nd ∈ R, key ≤ nd.key := fun nd hnd => of_decide_eq_true (hR nd hnd)
  have hLne : ∀ nd ∈ L, nd.key ≠ key := fun nd hnd => Nat.ne_of_lt (hLlt nd hnd)
  have hhead := h.head_right
  have hLfil : L.filter (fun x => x.key ≠ key) = L :=
    List.filter_eq_self.mpr fun x hx => decide_eq_true (hLne x hx)
  -- a key that is not there
  have hstay (hnone : lookup (L ++ R) key = none) : ∀ k,
      lookup (L ++ R) k = if k = key then none else lookup (L ++ R) k := by
    intro k
    split
    · next hk => rw [hk, hnone]
    · rfl
  unfold remove
  rw [hdesc]
  cases R with
  | nil =>
      have hnone : lookup (L ++ []) key = none := by rw [lookup_append_left hLne]; rfl
      refine ⟨st, L ++ [], ?_, h, hstay hnone, ?_, fun _ _ => rfl⟩
      · rw [hnone]
        simp [hhead]
      · rw [List.filter_append, hLfil]
        rfl
  | cons nd R =>
      obtain ⟨c, hcell, hkey, hdata, hlen, hf⟩ := h.linked.chain.holds
      by_cases hk : nd.key = key
      · obtain ⟨hlo, -, hhi⟩ := h.whole nd (by simp)
        have hnd0 : nd.above 0 = nd := by
          simp only [Node.above, Nat.zero_min]
          rw [← hlo]
        have h0 := h.linked
        rw [← hnd0] at h0
        have hlev := h.level
        obtain ⟨st1, heq, h1, hlev1, hfr⟩ :=
          unlinkLevels_linked (k := st.sk.level + 1) h0 (by omega)
        rw [Nat.zero_add] at h1
        have hno : ∀ j, ¬ (nd.above (st.sk.level + 1)).At j := by
          intro j hj
          simp only [Node.At, Node.above] at hj
          omega
        have hother := nodup_middle.mp h1.addrs
        have h2 : Linked (st1.setCell nd.addr none) (L ++ R) := by
          refine ⟨h1.length, fun j hj => ?_, (h1.chain.drop hno).congr fun x hx => ?_, hother.2, ?_⟩
          · rw [← nextAt_unlinked hno]
            exact h1.head j hj
          · exact State.setCell_other (hother.1 x hx)
          · exact fun _ hx => h1.below _ (List.mem_append.mpr
              ((List.mem_append.mp hx).imp_right (List.mem_cons_of_mem _)))
        have hold : ∀ {x}, x ∈ L ++ R → x ∈ L ++ nd :: R := fun hx => List.mem_append.mpr
          ((List.mem_append.mp hx).imp_right (List.mem_cons_of_mem _))
        obtain ⟨level', hcl, hle, hhi'⟩ := correctLevel_eq st1.sk.level h2.head
          (fun x hx => ⟨(h.whole _ (hold hx)).1, hlev1 ▸ (h.whole _ (hold hx)).2.2⟩) (hlev1 ▸ hlev)
        refine ⟨{ st1.setCell nd.addr none with
            sk := { (st1.setCell nd.addr none).sk with level := level' } }, L ++ R, ?_,
          ⟨⟨h2.length, h2.head, h2.chain.congr fun _ _ => rfl, h2.addrs, h2.below⟩, ?_, ?_, ?_⟩,
          fun k => ?_, ?_, fun b hb => ?_⟩
        · rw [lookup_append_left hLne, lookup, if_pos hk]
          have hfwd : (st1.setCell nd.addr none).sk.forward = st1.sk.forward := rfl
          rw [hfwd] at hcl
          simp [hhead, hcell, hkey, hk, List.range_eq_range', heq, hcl]
        · exact fun _ hx => ⟨(h.whole _ (hold hx)).1, (h.whole _ (hold hx)).2.1, hhi' _ hx⟩
        · exact Nat.lt_of_le_of_lt hle (hlev1 ▸ hlev)
        · have hs := List.pairwise_append.mp h.sorted
          refine List.pairwise_append.mpr ⟨hs.1, (List.pairwise_cons.mp hs.2.1).2, ?_⟩
          exact fun x hx y hy => hs.2.2 x hx y (List.mem_cons_of_mem _ hy)
        · rw [lookup_append, lookup_append, lookup]
          by_cases hkk : k = key
          · subst hkk
            have hR0 : lookup R k = none := lookup_none fun x hx => by
              have hs := List.pairwise_cons.mp (List.pairwise_append.mp h.sorted).2.1
              have := hs.1 x hx
              omega
            rw [if_pos rfl, lookup_none hLne, hR0]
            rfl
          · have hne : nd.key ≠ k := fun heq => hkk (heq.symm.trans hk)
            rw [if_neg hkk, if_neg hne]
        · have hRfil : R.filter (fun x => x.key ≠ key) = R := by
            refine List.filter_eq_self.mpr fun x hx => decide_eq_true ?_
            have hs := List.pairwise_cons.mp (List.pairwise_append.mp h.sorted).2.1
            exact hk ▸ Nat.ne_of_gt (hs.1 x hx)
          rw [List.filter_append, hLfil, List.filter_cons_of_neg (by simpa using hk), hRfil]
        · have hb1 : b ≠ nd.addr := fun heq => hb nd (by simp) heq.symm
          exact (State.setCell_other hb1).trans (hfr b fun x hx => hb x (List.mem_append_left _ hx))
      · have hlt : key < nd.key := Nat.lt_of_le_of_ne (hRle nd (List.mem_cons_self ..)) (Ne.symm hk)
        have hnone : lookup (L ++ nd :: R) key = none := by
          rw [lookup_append_left hLne]
          exact lookup_none fun x hx => Nat.ne_of_gt (h.above hlt x hx)
        refine ⟨st, L ++ nd :: R, ?_, h, hstay hnone, ?_, fun _ _ => rfl⟩
        · rw [hnone]
          simp [hhead, hcell, hkey, hk]
        · refine (List.filter_eq_self.mpr fun x hx => decide_eq_true ?_).symm
          rcases List.mem_append.mp hx with hx | hx
          · exact hLne x hx
          · exact Nat.ne_of_gt (h.above hlt x hx)

/-! ## Lookup -/

theorem lookup_mem {st : State} {nodes : List Node} (h : Rep st nodes) (nd : Node)
    (hnd : nd ∈ nodes) : lookup nodes nd.key = some nd.data := by
  obtain ⟨L, R, rfl⟩ := List.append_of_mem hnd
  have hs := List.pairwise_append.mp h.sorted
  have hL : ∀ x ∈ L, x.key ≠ nd.key := fun x hx =>
    Nat.ne_of_lt (hs.2.2 x hx nd (List.mem_cons_self ..))
  rw [lookup_append_left hL, lookup, if_pos rfl]

/-- The search from a place behind which the key may be finds what the list has. -/
theorem findFrom_eq {st : State} {key : Nat} {R : List Node} {n i : Nat} (pre : List Node)
    {mid : List Node} {e : Place} (hr : Rep st (pre ++ (mid ++ R))) (hc : Cursor i pre e)
    (hi : i < numLevels) (hpre : ∀ nd ∈ pre, nd.key < key) (hmid : ∀ nd ∈ mid, nd.key < key)
    (hR : ∀ nd ∈ R, key ≤ nd.key) (hn : mid.length + i < n) :
    findFrom st key n i e = some (lookup (pre ++ (mid ++ R)) key) := by
  induction n generalizing i pre mid e with
  | zero => exact absurd hn (Nat.not_lt_zero _)
  | succ n ih =>
      have hleft : lookup (pre ++ (mid ++ R)) key = lookup R key := by
        rw [lookup_append_left fun x hx => Nat.ne_of_lt (hpre x hx),
          lookup_append_left fun x hx => Nat.ne_of_lt (hmid x hx)]
      unfold findFrom
      cases hm : nextAt i mid with
      | none =>
          have hstop (hp : probe st key e i = some .stop) (h0 : i = 0 → lookup R key = none) :
              findFrom st key (n + 1) i e = some (lookup (pre ++ (mid ++ R)) key) := by
            unfold findFrom
            rw [hp]
            cases i with
            | zero =>
                rw [hleft, h0 rfl]
                rfl
            | succ i => exact ih pre hr (hc.down hr) (Nat.lt_of_succ_lt hi) hpre hmid (by omega)
          have hfwd := hc.forwardAt hr.linked hi
          rw [nextAt_append, hm, Option.none_or] at hfwd
          unfold findFrom at hstop
          cases hRn : nextAt i R with
          | none =>
              refine hstop (by simp [probe, hfwd, hRn]) fun h0 => ?_
              subst h0
              cases R with
              | nil => rfl
              | cons x R =>
                  obtain ⟨hlo, hhi, -⟩ := hr.whole x (by simp)
                  rw [nextAt, if_pos ⟨Nat.le_of_eq hlo, hhi⟩] at hRn
                  cases hRn
          | some a =>
              obtain ⟨R1, x, R2, rfl, hR1, hat, rfl⟩ := nextAt_split hRn
              have hr2 : Rep st ((pre ++ (mid ++ R1)) ++ x :: R2) := by simpa using hr
              obtain ⟨c, hcell, hkey, hdata, -⟩ := hr2.linked.chain.holds
              have hle : key ≤ x.key := hR x (by simp)
              by_cases hlt : key < x.key
              · refine hstop (by simp [probe, hfwd, hRn, hcell, hkey, hlt]) fun h0 => ?_
                subst h0
                -- at level 0 the cell reached is the first one behind
                cases R1 with
                | nil =>
                    have hr3 : Rep st ((pre ++ mid) ++ x :: R2) := by simpa using hr
                    exact lookup_none fun y hy => Nat.ne_of_gt (hr3.above hlt y hy)
                | cons y R1 =>
                    obtain ⟨hlo, hhi, -⟩ := hr.whole y (by simp)
                    rw [nextAt, if_pos ⟨Nat.le_of_eq hlo, hhi⟩] at hR1
                    cases hR1
              · have hk : x.key = key := Nat.le_antisymm (Nat.le_of_not_lt hlt) hle
                have hlook := lookup_mem hr x (by simp)
                rw [hk] at hlook
                rw [hlook]
                simp [probe, hfwd, hRn, hcell, hkey, hk, hdata]
      | some a =>
          obtain ⟨m1, nd, m2, rfl, h1, hat, rfl⟩ := nextAt_split hm
          have hkey := hmid nd (by simp)
          have heq : pre ++ ((m1 ++ nd :: m2) ++ R) = (pre ++ m1 ++ [nd]) ++ (m2 ++ R) := by simp
          have hr2 : Rep st ((pre ++ m1) ++ nd :: (m2 ++ R)) := by simpa using hr
          obtain ⟨c, hcell, hck, -⟩ := hr2.linked.chain.holds
          have hprobe : probe st key e i = some (.move nd.addr) := by
            have h2 : ¬ key < nd.key := Nat.not_lt_of_gt hkey
            have h3 : nd.key ≠ key := Nat.ne_of_lt hkey
            have hfwd := hc.forwardAt hr.linked hi
            rw [nextAt_append, hm] at hfwd
            simp [probe, hfwd, hcell, hck, h2, h3]
          rw [hprobe, heq]
          refine ih (pre ++ m1 ++ [nd]) (heq ▸ hr) (.cell _ hat) hi ?_ ?_ ?_
          · intro x hx
            simp only [List.mem_append, List.mem_singleton] at hx
            rcases hx with (hx | hx) | rfl
            · exact hpre x hx
            · exact hmid x (List.mem_append_left _ hx)
            · exact hkey
          · exact fun x hx => hmid x (by simp [hx])
          · rw [List.length_append, List.length_cons] at hn
            omega

/-- `caml_skiplist_find` -/
theorem find_rep {st : State} {nodes : List Node} {key n : Nat} (h : Rep st nodes)
    (hn : nodes.length + numLevels ≤ n) : find n st key = some (lookup nodes key) := by
  obtain ⟨L, R, rfl, hL, hR⟩ := h.split (fun k => decide (key ≤ k)) (not_le_mono key)
  have hlev := h.level
  refine findFrom_eq [] h .head hlev (fun _ hx => absurd hx List.not_mem_nil)
    (fun x hx => by simpa using hL x hx) (fun x hx => of_decide_eq_true (hR x hx)) ?_
  rw [List.length_append] at hn
  omega

/-- `caml_skiplist_find_below`: the binding with the largest key that is at most `k`. -/
theorem findBelow_rep {st : State} {nodes : List Node} {k n : Nat} (h : Rep st nodes)
    (hn : nodes.length + numLevels ≤ n) :
    (findBelow n st k = some none ∧ ∀ j, (lookup nodes j).isSome → k < j) ∨
    ∃ key data, findBelow n st k = some (some (key, data)) ∧ lookup nodes key = some data ∧
      key ≤ k ∧ ∀ j, (lookup nodes j).isSome → j ≤ k → j ≤ key := by
  have hmono : ∀ {i j : Nat}, i ≤ j → decide (k < i) = true → decide (k < j) = true :=
    fun hij hi => decide_eq_true (Nat.lt_of_lt_of_le (of_decide_eq_true hi) hij)
  obtain ⟨L, R, rfl, hL, hR⟩ := h.split (fun j => decide (k < j)) hmono
  have hdesc := h.descend (fun j => decide (k < j)) hL hR (n := n)
    (by rw [List.length_append] at hn; omega)
  have hmem : ∀ {j}, (lookup (L ++ R) j).isSome → ∃ nd ∈ L ++ R, nd.key = j := by
    intro j hj
    by_contra hno
    rw [lookup_none fun nd hnd heq => hno ⟨nd, hnd, heq⟩] at hj
    cases hj
  cases L using List.reverseRecOn with
  | nil =>
      refine .inl ⟨?_, fun j hj => ?_⟩
      · simp [findBelow, hdesc, predAt]
      · obtain ⟨nd, hnd, rfl⟩ := hmem hj
        exact of_decide_eq_true (hR nd hnd)
  | append_singleton L nd =>
      have hle : nd.key ≤ k := by simpa using hL nd (by simp)
      have h2 : Rep st (L ++ nd :: R) := by simpa using h
      obtain ⟨c, hcell, hkey, hdata, -⟩ := h2.linked.chain.holds
      obtain ⟨hlo, hhi, -⟩ := h2.whole nd (by simp)
      have hpred : predAt 0 .head (L ++ [nd]) = .cell nd.addr := by
        rw [predAt_append, predAt, if_pos ⟨Nat.le_of_eq hlo, hhi⟩]
        rfl
      refine .inr ⟨nd.key, nd.data, ?_, lookup_mem h _ (by simp), hle, fun j hj hjk => ?_⟩
      · rw [hpred] at hdesc
        simp [findBelow, hdesc, hcell, hkey, hdata]
      · obtain ⟨x, hx, rfl⟩ := hmem hj
        have hs := List.pairwise_append.mp h2.sorted
        rw [List.append_assoc, List.mem_append, List.singleton_append, List.mem_cons] at hx
        rcases hx with hx | rfl | hx
        · exact Nat.le_of_lt (hs.2.2 x hx nd (List.mem_cons_self ..))
        · exact Nat.le_refl _
        · have hgt : k < x.key := of_decide_eq_true (hR x hx)
          omega

/-! ## Whole lists -/

/-- A traversal gives the elements from its place on. -/
theorem elementsFrom_eq {st : State} {rest : List Node} (pre : List Node) {n : Nat}
    (h : Rep st (pre ++ rest)) (hn : rest.length ≤ n) :
    elementsFrom st n (nextAt 0 rest) = some (rest.map fun nd => (nd.key, nd.data)) := by
  induction rest generalizing pre n with
  | nil =>
      cases n <;> rfl
  | cons nd rest ih =>
      cases n with
      | zero => exact absurd hn (Nat.not_succ_le_zero _)
      | succ n =>
          obtain ⟨hlo, hhi, -⟩ := h.whole nd (by simp)
          have hat : nd.At 0 := ⟨Nat.le_of_eq hlo, hhi⟩
          obtain ⟨c, hcell, hkey, hdata, -, hf⟩ := h.linked.chain.holds
          have hrest := ih (pre ++ [nd]) (by simpa using h) (Nat.le_of_succ_le_succ hn)
          rw [nextAt, if_pos hat, elementsFrom]
          simp [hcell, hf 0 hat, hrest, hkey, hdata]

/-- `FOREACH_SKIPLIST_ELEMENT` visits the bindings in order. -/
theorem elements_rep {st : State} {nodes : List Node} {n : Nat} (h : Rep st nodes)
    (hn : nodes.length ≤ n) :
    elements n st = some (nodes.map fun nd => (nd.key, nd.data)) := by
  unfold elements
  rw [h.linked.head 0 (by decide)]
  exact elementsFrom_eq [] h hn

/-- Emptying a list frees its cells and no others. -/
theorem freeFrom_eq {rest : List Node} {n : Nat} (st : State)
    (hchain : Chain st rest) (hat : ∀ nd ∈ rest, nd.At 0) (ha : (rest.map Node.addr).Nodup)
    (hn : rest.length ≤ n) :
    ∃ st', freeFrom n (nextAt 0 rest) st = some st' ∧ st'.sk = st.sk ∧ st'.seed = st.seed ∧
      (∀ nd ∈ rest, st'.cells nd.addr = none) ∧
      ∀ b, (∀ nd ∈ rest, nd.addr ≠ b) → st'.cells b = st.cells b := by
  induction rest generalizing n st with
  | nil =>
      refine ⟨st, ?_, rfl, rfl, fun nd hnd => absurd hnd List.not_mem_nil, fun _ _ => rfl⟩
      cases n <;> rfl
  | cons nd rest ih =>
      cases n with
      | zero => exact absurd hn (Nat.not_succ_le_zero _)
      | succ n =>
          have hnd := hat nd (List.mem_cons_self ..)
          obtain ⟨⟨c, hcell, -, -, -, hf⟩, hchain⟩ := hchain
          obtain ⟨hnew, ha⟩ := List.nodup_cons.mp ha
          have hother : ∀ x ∈ rest, x.addr ≠ nd.addr := fun x hx heq =>
            hnew (heq ▸ List.mem_map_of_mem hx)
          obtain ⟨st', heq, hsk, hseed, hfree, hfr⟩ := ih (st.setCell nd.addr none)
            (hchain.congr fun x hx => State.setCell_other (hother x hx))
            (fun x hx => hat x (List.mem_cons_of_mem _ hx)) ha (Nat.le_of_succ_le_succ hn)
          refine ⟨st', ?_, hsk, hseed, fun x hx => ?_, fun b hb => ?_⟩
          · rw [nextAt, if_pos hnd, freeFrom]
            simp [hcell, hf 0 hnd, heq]
          · rcases List.mem_cons.mp hx with rfl | hx
            · exact (hfr _ hother).trans (State.setCell_same ..)
            · exact hfree x hx
          · refine (hfr b fun x hx => hb x (List.mem_cons_of_mem _ hx)).trans ?_
            exact State.setCell_other fun heq => hb nd (List.mem_cons_self ..) heq.symm

theorem emptyList_rep (cells : Addr → Option Skipcell) (seed : BitVec 32) :
    Rep ⟨cells, emptyList, seed⟩ [] where
  linked := by
    refine ⟨rfl, fun i hi => ?_, trivial, List.nodup_nil, fun _ h => absurd h List.not_mem_nil⟩
    exact List.getElem?_replicate_of_lt hi
  whole := fun _ h => absurd h List.not_mem_nil
  level := Nat.succ_pos 16
  sorted := .nil

/-- `caml_skiplist_empty` frees every cell and leaves an empty list. -/
theorem empty_rep {st : State} {nodes : List Node} {n : Nat} (h : Rep st nodes)
    (hn : nodes.length ≤ n) :
    ∃ st', empty n st = some st' ∧ Rep st' [] ∧ (∀ nd ∈ nodes, st'.cells nd.addr = none) ∧
      ∀ b, (∀ nd ∈ nodes, nd.addr ≠ b) → st'.cells b = st.cells b := by
  have hat : ∀ nd ∈ nodes, nd.At 0 := fun nd hnd =>
    ⟨Nat.le_of_eq (h.whole _ hnd).1, (h.whole _ hnd).2.1⟩
  obtain ⟨st1, heq, hsk, hseed, hfree, hfr⟩ := freeFrom_eq st h.linked.chain hat h.linked.addrs hn
  have hlev := h.level
  -- above the level of the list the pointers were null already
  have hfwd : List.replicate (st1.sk.level + 1) none ++ st1.sk.forward.drop (st1.sk.level + 1) =
      emptyList.forward := by
    rw [hsk]
    refine List.ext_getElem? fun i => ?_
    rw [List.getElem?_append, List.length_replicate]
    by_cases hi : i < numLevels
    · have hempty : emptyList.forward[i]? = some none := List.getElem?_replicate_of_lt hi
      rw [hempty]
      split
      · exact List.getElem?_replicate_of_lt (by assumption)
      · next hlt =>
          rw [List.getElem?_drop, Nat.add_sub_cancel' (Nat.le_of_not_lt hlt), h.linked.head i hi]
          cases hnx : nextAt i nodes with
          | none => rfl
          | some a =>
              obtain ⟨l1, nd, l2, rfl, -, hnd, -⟩ := nextAt_split hnx
              have hw := (h.whole nd (by simp)).2.2
              exact absurd (Nat.lt_of_lt_of_le hnd.2 hw) hlt
    · have h1 : emptyList.forward[i]? = none :=
        List.getElem?_eq_none (Nat.le_of_not_lt (by simpa [emptyList] using hi))
      have hlen := h.linked.length
      rw [h1, if_neg (by omega), List.getElem?_drop]
      exact List.getElem?_eq_none (by omega)
  refine ⟨{ st1 with sk := emptyList }, ?_, emptyList_rep _ _, hfree, hfr⟩
  unfold empty
  rw [h.linked.head 0 (by decide)]
  simp only [Option.bind_eq_bind, Option.bind_some, heq]
  rw [hfwd]
  rfl

/-! ## More rounds change nothing -/

/-- More fuel finds the same place. -/
theorem descend_more {st : State} {stop : Nat → Bool} {n m i : Nat} {e : Place}
    {update : List Place} {r : Place × List Place} (hnm : n ≤ m)
    (h : descend st stop n i e update = some r) : descend st stop m i e update = some r := by
  induction n generalizing m i e update with
  | zero => cases h
  | succ n ih =>
      cases m with
      | zero => exact absurd hnm (Nat.not_succ_le_zero _)
      | succ m =>
          have hnm := Nat.le_of_succ_le_succ hnm
          unfold descend at h ⊢
          cases ha : advance st stop e i with
          | none =>
              rw [ha] at h
              cases h
          | some o =>
              rw [ha] at h
              cases o with
              | some a => exact ih hnm h
              | none =>
                  cases i with
                  | zero => exact h
                  | succ i => exact ih hnm h

/-- More fuel finds the same datum. -/
theorem findFrom_more {st : State} {key n m i : Nat} {e : Place} {r : Option Nat} (hnm : n ≤ m)
    (h : findFrom st key n i e = some r) : findFrom st key m i e = some r := by
  induction n generalizing m i e with
  | zero => cases h
  | succ n ih =>
      cases m with
      | zero => exact absurd hnm (Nat.not_succ_le_zero _)
      | succ m =>
          have hnm := Nat.le_of_succ_le_succ hnm
          unfold findFrom at h ⊢
          cases hp : probe st key e i with
          | none =>
              rw [hp] at h
              cases h
          | some o =>
              rw [hp] at h
              cases o with
              | found data => exact h
              | move a => exact ih hnm h
              | stop =>
                  cases i with
                  | zero => exact h
                  | succ i => exact ih hnm h

/-- More fuel gives the same elements. -/
theorem elementsFrom_more {st : State} {n m : Nat} {e : Link} {r : List (Nat × Nat)} (hnm : n ≤ m)
    (h : elementsFrom st n e = some r) : elementsFrom st m e = some r := by
  induction n generalizing m e r with
  | zero =>
      cases e with
      | none => cases m <;> exact h
      | some a => cases h
  | succ n ih =>
      cases m with
      | zero => exact absurd hnm (Nat.not_succ_le_zero _)
      | succ m =>
          cases e with
          | none => exact h
          | some a =>
              unfold elementsFrom at h ⊢
              simp only [Option.bind_eq_bind, Option.bind_eq_some_iff] at h ⊢
              obtain ⟨f, hf, next, hnext, rest, hrest, h⟩ := h
              exact ⟨f, hf, next, hnext, rest, ih (Nat.le_of_succ_le_succ hnm) hrest, h⟩

/-- More fuel frees the same cells. -/
theorem freeFrom_more {st : State} {n m : Nat} {e : Link} {r : State} (hnm : n ≤ m)
    (h : freeFrom n e st = some r) : freeFrom m e st = some r := by
  induction n generalizing m e st with
  | zero =>
      cases e with
      | none => cases m <;> exact h
      | some a => cases h
  | succ n ih =>
      cases m with
      | zero => exact absurd hnm (Nat.not_succ_le_zero _)
      | succ m =>
          cases e with
          | none => exact h
          | some a =>
              unfold freeFrom at h ⊢
              simp only [Option.bind_eq_bind, Option.bind_eq_some_iff] at h ⊢
              obtain ⟨f, hf, next, hnext, h⟩ := h
              exact ⟨f, hf, next, hnext, ih (Nat.le_of_succ_le_succ hnm) h⟩

/-! ## Runs -/

/-- A call; that of `caml_skiplist_insert` with the address `caml_stat_alloc`
    would return. -/
inductive Op where
  | insert (key data : Nat) (a : Addr)
  | remove (key : Nat)
  | find (key : Nat)
  | findBelow (k : Nat)
  | elements
  | empty

inductive Answer where
  | flag (b : Bool)
  | data (d : Option Nat)
  | binding (kd : Option (Nat × Nat))
  | elements (l : List (Nat × Nat))
  | unit
deriving DecidableEq

/-- One call, with at most `n` rounds of its loops. -/
def step (n : Nat) (op : Op) (st : State) : Option (Answer × State) :=
  match op with
  | .insert key data a => (insert n a key data st).map fun r => (.flag r.1, r.2)
  | .remove key => (remove n key st).map fun r => (.flag r.1, r.2)
  | .find key => (find n st key).map fun d => (.data d, st)
  | .findBelow k => (findBelow n st k).map fun kd => (.binding kd, st)
  | .elements => (elements n st).map fun l => (.elements l, st)
  | .empty => (empty n st).map fun st => (.unit, st)

/-- What a call does to an ordered map, and what it answers. -/
inductive MapStep : (Nat → Option Nat) → Op → Answer → (Nat → Option Nat) → Prop where
  | insert (m : Nat → Option Nat) (key data : Nat) (a : Addr) :
      MapStep m (.insert key data a) (.flag (m key).isSome)
        fun k => if k = key then some data else m k
  | remove (m : Nat → Option Nat) (key : Nat) :
      MapStep m (.remove key) (.flag (m key).isSome) fun k => if k = key then none else m k
  | find (m : Nat → Option Nat) (key : Nat) : MapStep m (.find key) (.data (m key)) m
  | noneBelow {m : Nat → Option Nat} {k : Nat} (h : ∀ j, (m j).isSome → k < j) :
      MapStep m (.findBelow k) (.binding none) m
  | findBelow {m : Nat → Option Nat} {k key data : Nat} (h : m key = some data) (hle : key ≤ k)
      (hmax : ∀ j, (m j).isSome → j ≤ k → j ≤ key) :
      MapStep m (.findBelow k) (.binding (some (key, data))) m
  | elements {m : Nat → Option Nat} {l : List (Nat × Nat)}
      (hsorted : l.Pairwise fun x y => x.1 < y.1)
      (hmem : ∀ key data, (key, data) ∈ l ↔ m key = some data) :
      MapStep m .elements (.elements l) m
  | empty (m : Nat → Option Nat) : MapStep m .empty .unit fun _ => none

/-- The memory an insertion would use is not in use. -/
def Op.Fresh (op : Op) (st : State) : Prop :=
  ∀ key data a, op = .insert key data a → st.cells a = none

/-- An element of the list is looked up by its key, which is there once. -/
theorem lookup_eq_some {st : State} {nodes : List Node} (h : Rep st nodes) {key data : Nat} :
    (key, data) ∈ (nodes.map fun nd => (nd.key, nd.data)) ↔ lookup nodes key = some data := by
  constructor
  · intro hm
    obtain ⟨nd, hnd, heq⟩ := List.mem_map.mp hm
    obtain ⟨rfl, rfl⟩ := Prod.mk.inj heq
    exact lookup_mem h _ hnd
  · intro hl
    by_contra hno
    have hne : ∀ nd ∈ nodes, nd.key ≠ key := by
      rintro nd hnd rfl
      rw [lookup_mem h _ hnd] at hl
      obtain rfl := Option.some.inj hl
      exact hno (List.mem_map.mpr ⟨nd, hnd, rfl⟩)
    rw [lookup_none hne] at hl
    cases hl

/-- Every call returns, and does what it does to the map. -/
theorem step_rep {st : State} {nodes : List Node} (h : Rep st nodes) {op : Op}
    (hf : op.Fresh st) {n : Nat} (hn : nodes.length + numLevels ≤ n) :
    ∃ ans st' nodes', step n op st = some (ans, st') ∧ Rep st' nodes' ∧
      MapStep (lookup nodes) op ans (lookup nodes') := by
  cases op with
  | insert key data a =>
      obtain ⟨st', nodes', heq, hrep, hlook, -⟩ := insert_rep key data h (hf key data a rfl) hn
      refine ⟨_, st', nodes', by rw [step, heq]; rfl, hrep, ?_⟩
      rw [funext hlook]
      exact .insert ..
  | remove key =>
      obtain ⟨st', nodes', heq, hrep, hlook, -⟩ := remove_rep key h hn
      refine ⟨_, st', nodes', by rw [step, heq]; rfl, hrep, ?_⟩
      rw [funext hlook]
      exact .remove ..
  | find key => exact ⟨_, st, nodes, by rw [step, find_rep h hn]; rfl, h, .find ..⟩
  | findBelow k =>
      rcases findBelow_rep (k := k) h hn with ⟨heq, hno⟩ | ⟨key, data, heq, hl, hle, hmax⟩
      · exact ⟨_, st, nodes, by rw [step, heq]; rfl, h, .noneBelow hno⟩
      · exact ⟨_, st, nodes, by rw [step, heq]; rfl, h, .findBelow hl hle hmax⟩
  | elements =>
      have heq := elements_rep h (Nat.le_of_add_right_le hn)
      refine ⟨_, st, nodes, by rw [step, heq]; rfl, h, .elements ?_ fun key data => ?_⟩
      · exact List.pairwise_map.mpr h.sorted
      · exact lookup_eq_some h
  | empty =>
      obtain ⟨st', heq, hrep, -⟩ := empty_rep h (Nat.le_of_add_right_le hn)
      exact ⟨_, st', [], by rw [step, heq]; rfl, hrep, .empty _⟩

/-- More fuel gives the same answer. -/
theorem step_more {n m : Nat} {op : Op} {st : State} {r : Answer × State} (hnm : n ≤ m)
    (h : step n op st = some r) : step m op st = some r := by
  cases op with
  | insert key data a =>
      simp only [step, insert, Option.map_eq_some_iff, Option.bind_eq_bind,
        Option.bind_eq_some_iff] at h ⊢
      obtain ⟨x, ⟨p, hp, hrest⟩, heq⟩ := h
      exact ⟨x, ⟨p, descend_more hnm hp, hrest⟩, heq⟩
  | remove key =>
      simp only [step, remove, Option.map_eq_some_iff, Option.bind_eq_bind,
        Option.bind_eq_some_iff] at h ⊢
      obtain ⟨x, ⟨p, hp, hrest⟩, heq⟩ := h
      exact ⟨x, ⟨p, descend_more hnm hp, hrest⟩, heq⟩
  | find key =>
      simp only [step, find, Option.map_eq_some_iff] at h ⊢
      obtain ⟨x, hx, heq⟩ := h
      exact ⟨x, findFrom_more hnm hx, heq⟩
  | findBelow k =>
      simp only [step, findBelow, Option.map_eq_some_iff, Option.bind_eq_bind,
        Option.bind_eq_some_iff] at h ⊢
      obtain ⟨x, ⟨p, hp, hrest⟩, heq⟩ := h
      exact ⟨x, ⟨p, descend_more hnm hp, hrest⟩, heq⟩
  | elements =>
      simp only [step, elements, Option.map_eq_some_iff, Option.bind_eq_bind,
        Option.bind_eq_some_iff] at h ⊢
      obtain ⟨x, ⟨p, hp, hrest⟩, heq⟩ := h
      exact ⟨x, ⟨p, hp, elementsFrom_more hnm hrest⟩, heq⟩
  | empty =>
      simp only [step, empty, Option.map_eq_some_iff, Option.bind_eq_bind,
        Option.bind_eq_some_iff] at h ⊢
      obtain ⟨x, ⟨p, hp, q, hq, hrest⟩, heq⟩ := h
      exact ⟨x, ⟨p, hp, q, freeFrom_more hnm hq, hrest⟩, heq⟩

/-- A sequence of calls that return, with their answers. -/
inductive Runs : State → List (Op × Answer) → State → Prop where
  | nil (st : State) : Runs st [] st
  | cons {st st1 st' : State} {op : Op} {ans : Answer} {calls : List (Op × Answer)} (n : Nat)
      (hf : op.Fresh st) (h : step n op st = some (ans, st1)) (hr : Runs st1 calls st') :
      Runs st ((op, ans) :: calls) st'

/-- The same calls on an ordered map. -/
inductive MapRuns : (Nat → Option Nat) → List (Op × Answer) → (Nat → Option Nat) → Prop where
  | nil (m : Nat → Option Nat) : MapRuns m [] m
  | cons {m m1 m' : Nat → Option Nat} {op : Op} {ans : Answer} {calls : List (Op × Answer)}
      (h : MapStep m op ans m1) (hr : MapRuns m1 calls m') : MapRuns m ((op, ans) :: calls) m'

theorem Runs.rep {st st' : State} {calls : List (Op × Answer)} {nodes : List Node}
    (hr : Runs st calls st') (h : Rep st nodes) :
    ∃ nodes', Rep st' nodes' ∧ MapRuns (lookup nodes) calls (lookup nodes') := by
  induction hr generalizing nodes with
  | nil st => exact ⟨nodes, h, .nil _⟩
  | cons n hf hstep _ ih =>
      obtain ⟨ans, st1, nodes1, heq, h1, hm⟩ := step_rep h hf (Nat.le_max_left _ n)
      have hmore := step_more (Nat.le_max_right (nodes.length + numLevels) n) hstep
      obtain ⟨rfl, rfl⟩ := Prod.mk.inj (Option.some.inj (heq.symm.trans hmore))
      obtain ⟨nodes', h', hmr⟩ := ih h1
      exact ⟨nodes', h', .cons hm hmr⟩

/-- A skip list is an ordered map: from the empty list, any calls give the
    answers of the map, no call follows a null or freed pointer or leaves an
    array, and every further call returns. -/
theorem skiplist_refines {cells : Addr → Option Skipcell} {seed : BitVec 32}
    {calls : List (Op × Answer)} {st : State} (h : Runs ⟨cells, emptyList, seed⟩ calls st) :
    ∃ m, MapRuns (fun _ => none) calls m ∧
      ∀ op : Op, op.Fresh st → ∃ bound ans st' m', MapStep m op ans m' ∧
        ∀ n, bound ≤ n → step n op st = some (ans, st') := by
  obtain ⟨nodes, hrep, hm⟩ := h.rep (emptyList_rep cells seed)
  refine ⟨lookup nodes, hm, fun op hf => ?_⟩
  obtain ⟨ans, st', nodes', heq, -, hstep⟩ := step_rep hrep hf (Nat.le_refl _)
  exact ⟨_, ans, st', _, hstep, fun n hn => step_more hn heq⟩

/-- Two insertions, a search in between and a removal. -/
theorem skiplist_refines_two :
    ∃ calls st, calls.length = 4 ∧ Runs ⟨fun _ => none, emptyList, 0⟩ calls st ∧
      ∃ m, MapRuns (fun _ => none) calls m := by
  have hrun : ∃ st, Runs ⟨fun _ => none, emptyList, 0⟩
      [(.insert 5 50 0, .flag false), (.insert 3 30 1, .flag false),
        (.findBelow 4, .binding (some (3, 30))), (.remove 5, .flag true)] st := by
    refine ⟨_, .cons 20 ?_ rfl (.cons 20 ?_ rfl (.cons 20 ?_ rfl (.cons 20 ?_ rfl (.nil _))))⟩
    · rintro key data a ⟨⟩
      rfl
    · rintro key data a ⟨⟩
      rfl
    · rintro key data a ⟨⟩
    · rintro key data a ⟨⟩
  obtain ⟨st, hrun⟩ := hrun
  obtain ⟨m, hm, -⟩ := skiplist_refines hrun
  exact ⟨_, st, rfl, hrun, m, hm⟩

end CamlSkipList
