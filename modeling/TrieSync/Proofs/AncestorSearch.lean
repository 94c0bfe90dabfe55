import Mathlib.Algebra.BigOperators.Group.Finset.Basic
import Mathlib.Algebra.BigOperators.Intervals
import Mathlib.Order.Bounds.Defs
import Mathlib.Tactic.ByContra
import TrieSync.Ancestor.Loop

namespace TrieSync

namespace Chain

theorem search_eq (chain : Chain) (H : Hash) (store : Store) (genesis : UInt64)
    (depth : SearchDepth) (target spent : UInt64) (header : Header) :
    chain.search H store genesis depth target spent header =
      if store.hasState H header then
        .ok header
      else
        match depth.spend target spent header with
        | .error error => .error error
        | .ok spent =>
            if header.number ≤ genesis then
              .error (.beyondGenesis target genesis)
            else
              match chain.header? header.parent (header.number - 1) with
              | none => .error (.missingParent header.number header.digest)
              | some parent => chain.search H store genesis depth target spent parent := by
  rw [search]
  cases depth.spend target spent header with
  | error error => rfl
  | ok spent =>
      by_cases reached : header.number ≤ genesis
      · simp only [dif_pos reached, if_pos reached]
      · simp only [dif_neg reached, if_neg reached]
        congr 1
        split <;> rename_i found <;> rw [found]

/-- The loop ends at the genesis block at the latest, and does not ask for what is before zero. -/
theorem searchWithin?_eq (chain : Chain) (H : Hash) (store : Store) (genesis : UInt64)
    (depth : SearchDepth) (target spent : UInt64) (header : Header) {rounds : Nat}
    (enough : header.number.toNat - genesis.toNat < rounds) :
    chain.searchWithin? H store genesis depth target rounds spent header =
      some (chain.search H store genesis depth target spent header) := by
  induction rounds generalizing spent header with
  | zero => exact absurd enough (Nat.not_lt_zero _)
  | succ rounds ih =>
      rw [searchWithin?, search_eq]
      by_cases available : store.hasState H header = true
      · rw [if_pos available, if_pos available]
      rw [if_neg available, if_neg available]
      cases depth.spend target spent header with
      | error error => rfl
      | ok spent =>
          by_cases reached : header.number ≤ genesis
          · simp only [if_pos reached]
          have later := UInt64.not_le.mp reached
          simp only [if_neg reached, predecessor?_of_lt later, Option.bind_eq_bind,
            Option.bind_some]
          cases found : chain.header? header.parent (header.number - 1) with
          | none => rfl
          | some parent =>
              have number_eq := chain.number_eq_of_header? _ _ _ found
              have earlier := toNat_sub_one_of_lt later
              rw [UInt64.lt_iff_toNat_lt] at later
              exact ih spent parent (by rw [number_eq]; omega)

/-- The header that is some blocks before a target, if all headers up to it are known. -/
def ancestor? (chain : Chain) (target : Header) : (back : Nat) → Option Header
  | 0 => some target
  | back + 1 => do
      let header ← chain.ancestor? target back
      chain.header? header.parent (← predecessor? header.number)

/-- Gas that the given number of blocks has used, the target being the first of them, or the largest
number if that is less. -/
def gasSpent (chain : Chain) (target : Header) (blocks : Nat) : Nat :=
  min (∑ back ∈ Finset.range blocks,
    ((chain.ancestor? target back).bind Header.gasUsed).elim 0 UInt64.toNat) (UInt64.size - 1)

/-- The bound on the search lets it go past a header that is some blocks before the target. -/
def Within (chain : Chain) (target : Header) (depth : SearchDepth) (back : Nat)
    (header : Header) : Prop :=
  match depth with
  | .target => False
  | .unbounded => True
  | .gas limit => header.gasUsed ≠ none ∧ chain.gasSpent target (back + 1) ≤ limit.toNat

/-- There is a header some blocks before the target, which lets the search go on to its parent. -/
def Passes (chain : Chain) (target : Header) (genesis : UInt64) (depth : SearchDepth)
    (back : Nat) : Prop :=
  ∃ header, chain.ancestor? target back = some header ∧ chain.Within target depth back header ∧
    genesis < header.number

/-- The state some blocks before the target is that of the empty trie, or its root node is held. -/
def AvailableAt (chain : Chain) (H : Hash) (store : Store) (target : Header) (back : Nat) : Prop :=
  ∃ header, chain.ancestor? target back = some header ∧
    (header.stateRoot = emptyRoot H ∨ store.hasNode ⟨.root, header.stateRoot⟩ = true)

/-- Why the search cannot go past a header whose state is not available. -/
inductive Blocks (chain : Chain) (target : Header) (genesis : UInt64) (depth : SearchDepth)
    (back : Nat) (header : Header) : AncestorError → Prop
  | unavailable (depth_eq : depth = .target) :
      Blocks chain target genesis depth back header (.unavailable header.number)
  | missingGas {limit : UInt64} (depth_eq : depth = .gas limit) (unknown : header.gasUsed = none) :
      Blocks chain target genesis depth back header (.missingGas header.number)
  | depthExceeded {limit : UInt64} (depth_eq : depth = .gas limit)
      (known : header.gasUsed ≠ none) (exceeded : limit.toNat < chain.gasSpent target (back + 1)) :
      Blocks chain target genesis depth back header (.depthExceeded target.number limit)
  | beyondGenesis (within : chain.Within target depth back header)
      (reached : header.number ≤ genesis) :
      Blocks chain target genesis depth back header (.beyondGenesis target.number genesis)
  | missingParent (within : chain.Within target depth back header)
      (later : genesis < header.number) (absent : chain.ancestor? target (back + 1) = none) :
      Blocks chain target genesis depth back header (.missingParent header.number header.digest)

/-- The outcome of a search is decided at the first header that it cannot, or need not, go past. -/
structure Decides (chain : Chain) (H : Hash) (store : Store) (target : Header) (genesis : UInt64)
    (depth : SearchDepth) (result : Except AncestorError Header) : Prop where
  eq_ok_iff : ∀ header, result = .ok header ↔ ∃ back,
    IsLeast {back | chain.AvailableAt H store target back ∧
      ∀ earlier < back, chain.Passes target genesis depth earlier} back ∧
    chain.ancestor? target back = some header
  eq_error_iff : ∀ error, result = .error error ↔ ∃ back header,
    chain.ancestor? target back = some header ∧
    (∀ earlier ≤ back, ¬ chain.AvailableAt H store target earlier) ∧
    (∀ earlier < back, chain.Passes target genesis depth earlier) ∧
    chain.Blocks target genesis depth back header error

section search

variable {chain : Chain} {H : Hash} {store : Store} {target header : Header}
  {genesis spent : UInt64} {depth : SearchDepth} {back : Nat} {error : AncestorError}
  {result : Except AncestorError Header}

theorem hasState_iff (reached : chain.ancestor? target back = some header) :
    store.hasState H header = true ↔ chain.AvailableAt H store target back := by
  simp [AvailableAt, reached, Store.hasState]

theorem ancestor?_succ (reached : chain.ancestor? target back = some header)
    (later : genesis < header.number) :
    chain.ancestor? target (back + 1) = chain.header? header.parent (header.number - 1) := by
  simp [ancestor?, reached, predecessor?_of_lt later]

theorem gasSpent_succ (reached : chain.ancestor? target back = some header) {used : UInt64}
    (known : header.gasUsed = some used) : chain.gasSpent target (back + 1) =
      min (chain.gasSpent target back + used.toNat) (UInt64.size - 1) := by
  simp only [gasSpent, Finset.sum_range_succ, reached, known, Option.bind_some, Option.elim_some]
  omega

/-- What a search keeps of the gas used by the blocks before the one it is at. -/
def Spends (chain : Chain) (target : Header) (depth : SearchDepth) (back : Nat)
    (spent : UInt64) : Prop :=
  ∀ limit, depth = .gas limit → spent.toNat = chain.gasSpent target back

theorem toNat_saturatingAdd (left right : UInt64) :
    (SearchDepth.saturatingAdd left right).toNat =
      min (left.toNat + right.toNat) (UInt64.size - 1) := by
  rw [SearchDepth.saturatingAdd, UInt64.toNat_ofNat']
  exact Nat.mod_eq_of_lt (Nat.lt_of_le_of_lt (Nat.min_le_right _ _) (by decide))

theorem spend_spec (genesis : UInt64) (reached : chain.ancestor? target back = some header)
    (spends : chain.Spends target depth back spent) :
    match depth.spend target.number spent header with
    | .error error => chain.Blocks target genesis depth back header error
    | .ok after =>
        chain.Within target depth back header ∧ chain.Spends target depth (back + 1) after := by
  cases depth with
  | target => exact .unavailable rfl
  | unbounded => exact ⟨trivial, nofun⟩
  | gas limit =>
      cases known : header.gasUsed with
      | none =>
          simp only [SearchDepth.spend, known]
          exact .missingGas rfl known
      | some used =>
          have spent_eq : (SearchDepth.saturatingAdd spent used).toNat =
              chain.gasSpent target (back + 1) := by
            rw [toNat_saturatingAdd, spends limit rfl, gasSpent_succ reached known]
          by_cases exceeded : limit < SearchDepth.saturatingAdd spent used
          · simp only [SearchDepth.spend, known, if_pos exceeded]
            refine .depthExceeded rfl (by simp [known]) ?_
            rwa [← spent_eq, ← UInt64.lt_iff_toNat_lt]
          · simp only [SearchDepth.spend, known, if_neg exceeded]
            refine ⟨⟨by simp [known], ?_⟩, fun _ _ => spent_eq⟩
            rwa [← spent_eq, ← UInt64.le_iff_toNat_le, ← UInt64.not_lt]

/-- A search with the given outcome goes past some blocks and ends at the next one. -/
structure EndsAt (chain : Chain) (H : Hash) (store : Store) (target : Header) (genesis : UInt64)
    (depth : SearchDepth) (back : Nat) (header : Header) (result : Except AncestorError Header) :
    Prop where
  reached : chain.ancestor? target back = some header
  unavailable : ∀ earlier < back, ¬ chain.AvailableAt H store target earlier
  passes : ∀ earlier < back, chain.Passes target genesis depth earlier
  ends : (chain.AvailableAt H store target back ∧ result = .ok header) ∨
    (¬ chain.AvailableAt H store target back ∧
      ∃ error, chain.Blocks target genesis depth back header error ∧ result = .error error)

theorem exists_endsAt (reached : chain.ancestor? target back = some header)
    (spends : chain.Spends target depth back spent)
    (unavailable : ∀ earlier < back, ¬ chain.AvailableAt H store target earlier)
    (passes : ∀ earlier < back, chain.Passes target genesis depth earlier) :
    ∃ back last, chain.EndsAt H store target genesis depth back last
      (chain.search H store genesis depth target.number spent header) := by
  induction spent, header using Chain.search.induct chain H store genesis depth target.number
    generalizing back with
  | case1 spent header available =>
      rw [search_eq, if_pos available]
      exact ⟨back, header, reached, unavailable, passes,
        .inl ⟨(hasState_iff reached).mp available, rfl⟩⟩
  | case2 spent header absent error failed =>
      have blocks := spend_spec genesis reached spends
      rw [failed] at blocks
      rw [search_eq, if_neg absent, failed]
      exact ⟨back, header, reached, unavailable, passes,
        .inr ⟨(hasState_iff reached).not.mp absent, error, blocks, rfl⟩⟩
  | case3 spent header absent after passed early =>
      have within := spend_spec genesis reached spends
      rw [passed] at within
      rw [search_eq, if_neg absent, passed]
      simp only [if_pos early]
      exact ⟨back, header, reached, unavailable, passes,
        .inr ⟨(hasState_iff reached).not.mp absent, _, .beyondGenesis within.1 early, rfl⟩⟩
  | case4 spent header absent after passed later missing =>
      have within := spend_spec genesis reached spends
      rw [passed] at within
      rw [search_eq, if_neg absent, passed]
      simp only [if_neg later, missing]
      have later := UInt64.not_le.mp later
      have no_parent := (ancestor?_succ reached later).trans missing
      have blocks := Blocks.missingParent within.1 later no_parent
      exact ⟨back, header, reached, unavailable, passes,
        .inr ⟨(hasState_iff reached).not.mp absent, _, blocks, rfl⟩⟩
  | case5 spent header absent after passed later parent found ih =>
      have within := spend_spec genesis reached spends
      rw [passed] at within
      rw [search_eq, if_neg absent, passed]
      simp only [if_neg later, found]
      have later := UInt64.not_le.mp later
      refine ih ((ancestor?_succ reached later).trans found) within.2 ?_ ?_
      · exact Nat.forall_lt_succ_right.mpr ⟨unavailable, (hasState_iff reached).not.mp absent⟩
      · exact Nat.forall_lt_succ_right.mpr ⟨passes, header, reached, within.1, later⟩

theorem Blocks.no_ancestor_of_passes (reached : chain.ancestor? target back = some header)
    (h : chain.Blocks target genesis depth back header error)
    (passes : chain.Passes target genesis depth back) :
    chain.ancestor? target (back + 1) = none := by
  obtain ⟨header', reached', within, later⟩ := passes
  obtain rfl := Option.some.inj (reached.symm.trans reached')
  cases h with
  | unavailable depth_eq =>
      subst depth_eq
      exact within.elim
  | missingGas depth_eq unknown =>
      subst depth_eq
      exact absurd unknown within.1
  | depthExceeded depth_eq known exceeded =>
      subst depth_eq
      exact absurd within.2 (Nat.not_le.mpr exceeded)
  | beyondGenesis _ early => exact absurd later (UInt64.not_lt.mpr early)
  | missingParent _ _ absent => exact absent

theorem Blocks.unique {error' : AncestorError}
    (h : chain.Blocks target genesis depth back header error)
    (h' : chain.Blocks target genesis depth back header error') : error = error' := by
  -- No two of the conditions hold together.
  cases h <;> cases h' <;>
    simp_all [Within, UInt64.lt_iff_toNat_lt, UInt64.le_iff_toNat_le] <;> omega

theorem EndsAt.le {back' : Nat} {header' : Header} {result' : Except AncestorError Header}
    (h : chain.EndsAt H store target genesis depth back header result)
    (h' : chain.EndsAt H store target genesis depth back' header' result') : back' ≤ back := by
  by_contra before
  have less : back < back' := Nat.not_le.mp before
  rcases h.ends with ⟨available, -⟩ | ⟨-, error, blocks, -⟩
  · exact h'.unavailable back less available
  · -- Only a missing parent stops a search that may pass, and no search gets further than that.
    have absent := blocks.no_ancestor_of_passes h.reached (h'.passes back less)
    rcases Nat.lt_or_eq_of_le (Nat.succ_le_of_lt less) with next | next
    · obtain ⟨header, reached, -⟩ := h'.passes (back + 1) next
      cases absent.symm.trans reached
    · cases absent.symm.trans (next ▸ h'.reached)

theorem EndsAt.unique {back' : Nat} {header' : Header} {result' : Except AncestorError Header}
    (h : chain.EndsAt H store target genesis depth back header result)
    (h' : chain.EndsAt H store target genesis depth back' header' result') : result = result' := by
  obtain rfl : back = back' := Nat.le_antisymm (h'.le h) (h.le h')
  obtain rfl := Option.some.inj (h.reached.symm.trans h'.reached)
  rcases h.ends with ⟨available, rfl⟩ | ⟨unavailable, error, blocks, rfl⟩
  · rcases h'.ends with ⟨-, rfl⟩ | ⟨unavailable, -⟩
    · rfl
    · exact absurd available unavailable
  · rcases h'.ends with ⟨available, -⟩ | ⟨-, error', blocks', rfl⟩
    · exact absurd available unavailable
    · rw [blocks.unique blocks']

theorem EndsAt.decides (h : chain.EndsAt H store target genesis depth back header result) :
    chain.Decides H store target genesis depth result where
  eq_ok_iff other := by
    constructor
    · rintro rfl
      rcases h.ends with ⟨available, same⟩ | ⟨-, error, -, same⟩
      · obtain rfl := Except.ok.inj same
        refine ⟨back, ⟨⟨available, h.passes⟩, ?_⟩, h.reached⟩
        rintro earlier ⟨available', -⟩
        exact Nat.not_lt.mp fun less => h.unavailable earlier less available'
      · cases same
    · rintro ⟨back', ⟨⟨available, passes⟩, least⟩, reached⟩
      have unavailable : ∀ earlier < back', ¬ chain.AvailableAt H store target earlier := by
        intro earlier less available'
        refine Nat.not_le.mpr less (least ⟨available', ?_⟩)
        exact fun before before_lt => passes before (before_lt.trans less)
      exact h.unique ⟨reached, unavailable, passes, .inl ⟨available, rfl⟩⟩
  eq_error_iff error := by
    constructor
    · rintro rfl
      rcases h.ends with ⟨-, same⟩ | ⟨unavailable, error', blocks, same⟩
      · cases same
      · obtain rfl := Except.error.inj same
        refine ⟨back, header, h.reached, ?_, h.passes, blocks⟩
        intro earlier le_back
        rcases Nat.lt_or_eq_of_le le_back with less | rfl
        · exact h.unavailable earlier less
        · exact unavailable
    · rintro ⟨back', header', reached, unavailable, passes, blocks⟩
      exact h.unique ⟨reached, fun earlier less => unavailable earlier less.le, passes,
        .inr ⟨unavailable back' le_rfl, error, blocks, rfl⟩⟩

end search

/-- The search ends on every chain, and its outcome is that of the first block that has state or
cannot be passed. -/
theorem lastAvailable_decides (chain : Chain) (H : Hash) (store : Store) (target : Header)
    (genesis : UInt64) (depth : SearchDepth) :
    (∀ rounds > target.number.toNat - genesis.toNat,
      chain.lastAvailable? H store target genesis depth rounds =
        some (chain.lastAvailable H store target genesis depth)) ∧
      chain.Decides H store target genesis depth
        (chain.lastAvailable H store target genesis depth) := by
  have nothing_spent : chain.Spends target depth 0 0 := by
    simp [Spends, gasSpent]
  have reached : chain.ancestor? target 0 = some target := rfl
  obtain ⟨back, last, ends⟩ :=
    exists_endsAt reached nothing_spent (fun _ before => absurd before (Nat.not_lt_zero _))
      (fun _ before => absurd before (Nat.not_lt_zero _))
  exact ⟨fun rounds enough => searchWithin?_eq chain H store genesis depth target.number 0 target
    enough, ends.decides⟩

end Chain

end TrieSync
