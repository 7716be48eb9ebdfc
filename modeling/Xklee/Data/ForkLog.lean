/-
A log of forks and writes that denotes a tree of streams.

Streams are opened as children of earlier ones and written to; a child starts with
what its parent holds. The log records both in order and nothing else. What a stream
holds is a fold over the log (`contents`). A reader finds the ancestors of a stream by
the forks, and then collects the writes to the current ancestor, moving on at the fork
towards the next one; `read_eq` says that this gives the contents.
-/
import Mathlib.Data.List.Lookmap
import Mathlib.Logic.Function.Basic
import Mathlib.Data.Nat.Notation

set_option autoImplicit false

universe u v

namespace ForkLog

/-- One entry of the log. -/
inductive Record (ι : Type u) (α : Type v)
  | fork (parent child : ι)
  | data (id : ι) (bytes : List α)
deriving DecidableEq

variable {ι : Type u} {α : Type v}

/-! ## Well-formed logs -/

/-- Each opened stream with its parent, in order. -/
def edges (log : List (Record ι α)) : List (ι × ι) :=
  log.filterMap fun
    | .fork parent child => some (child, parent)
    | .data _ _ => none

theorem edges_snoc_fork (log : List (Record ι α)) (parent child : ι) :
    edges (log ++ [.fork parent child]) = edges log ++ [(child, parent)] :=
  List.filterMap_append

theorem edges_snoc_data (log : List (Record ι α)) (id : ι) (bytes : List α) :
    edges (log ++ [.data id bytes]) = edges log :=
  List.filterMap_append.trans (List.append_nil _)

/-- The streams that the log opens. -/
def opened (log : List (Record ι α)) : List ι := (edges log).map Prod.fst

theorem opened_snoc_fork (log : List (Record ι α)) (parent child : ι) :
    opened (log ++ [.fork parent child]) = opened log ++ [child] := by
  rw [opened, edges_snoc_fork, List.map_append]
  rfl

theorem opened_snoc_data (log : List (Record ι α)) (id : ι) (bytes : List α) :
    opened (log ++ [.data id bytes]) = opened log := by
  rw [opened, edges_snoc_data, opened]

/-- Only opened streams are forked and written to, and each is opened once. The root is
never opened. -/
inductive WellFormed (root : ι) : List (Record ι α) → Prop
  | nil : WellFormed root []
  | fork {log : List (Record ι α)} {parent child : ι} (hlog : WellFormed root log)
      (hparent : parent = root ∨ parent ∈ opened log) (hfresh : child ∉ opened log)
      (hroot : child ≠ root) : WellFormed root (log ++ [.fork parent child])
  | data {log : List (Record ι α)} {id : ι} (hlog : WellFormed root log)
      (hid : id ∈ opened log) (bytes : List α) : WellFormed root (log ++ [.data id bytes])

variable {log : List (Record ι α)} {id root : ι} {parents : List (ι × ι)} {roots : List ι}

/-- A write at the end of a well-formed log is one to an opened stream. -/
theorem WellFormed.of_snoc_data {bytes : List α} (h : WellFormed root (log ++ [.data id bytes])) :
    WellFormed root log ∧ id ∈ opened log := by
  generalize hsnoc : log ++ [Record.data id bytes] = log' at h
  cases h with
  | nil => exact absurd hsnoc (by simp)
  | fork hlog hparent hfresh hroot =>
    exact absurd (List.append_inj_right' hsnoc rfl) (by simp)
  | data hlog hid bytes' =>
    obtain ⟨rfl, hlast⟩ := List.append_inj' hsnoc rfl
    have heq := Record.data.inj (List.singleton_inj.mp hlast)
    exact ⟨hlog, heq.1 ▸ hid⟩

theorem root_not_mem_opened (h : WellFormed root log) :
    root ∉ opened log := by
  induction h with
  | nil => simp [opened, edges]
  | @fork log parent child hlog hparent hfresh hroot ih =>
    rw [opened_snoc_fork, List.mem_append, List.mem_singleton, not_or]
    exact ⟨ih, hroot.symm⟩
  | @data log i hlog hi bytes ih =>
    rw [opened_snoc_data]
    exact ih

/-! ## What a log means -/

variable [DecidableEq ι]

/-- A child starts as its parent is; a write is appended. -/
def extend (contents : ι → List α) : Record ι α → ι → List α
  | .fork parent child => Function.update contents child (contents parent)
  | .data id bytes => Function.update contents id (contents id ++ bytes)

/-- What each stream holds. -/
def contents (log : List (Record ι α)) : ι → List α := log.foldl extend fun _ => []

theorem contents_snoc (log : List (Record ι α)) (r : Record ι α) :
    contents (log ++ [r]) = extend (contents log) r := by
  rw [contents, List.foldl_append]
  rfl

/-! ## Ancestors -/

/-- The ancestors of each stream, the stream itself last. -/
def extendPath (paths : ι → List ι) : Record ι α → ι → List ι
  | .fork parent child => Function.update paths child (paths parent ++ [child])
  | .data _ _ => paths

def paths (log : List (Record ι α)) : ι → List ι := log.foldl extendPath fun _ => []

theorem paths_snoc (log : List (Record ι α)) (r : Record ι α) :
    paths (log ++ [r]) = extendPath (paths log) r := by
  rw [paths, List.foldl_append]
  rfl

/-- Follow the parents up to the root, consing what is passed on `roots`. A chain
longer than the map never ends. -/
def rootsUp (parents : List (ι × ι)) (root : ι) : ℕ → ι → List ι → Option (List ι)
  | 0, _, _ => none
  | fuel + 1, id, roots =>
      if id = root then some roots
      else
        match parents.lookup id with
        | none => none
        | some parent => rootsUp parents root fuel parent (id :: roots)

/-- More entries at the end of the map, and more turns, change nothing that was found. -/
theorem rootsUp_mono {fuel fuel' : ℕ} (hle : fuel ≤ fuel') {found : List ι}
    (h : rootsUp parents root fuel id roots = some found) (more : List (ι × ι)) :
    rootsUp (parents ++ more) root fuel' id roots = some found := by
  induction fuel generalizing fuel' id roots with
  | zero => exact absurd h (by simp [rootsUp])
  | succ fuel ih =>
    obtain ⟨n, rfl⟩ := Nat.exists_eq_add_of_le' hle
    rw [← Nat.add_assoc, rootsUp]
    rw [rootsUp] at h
    by_cases hid : id = root
    · rwa [if_pos hid] at h ⊢
    · rw [if_neg hid] at h ⊢
      rw [List.lookup_append]
      cases hlookup : parents.lookup id with
      | none => rw [hlookup] at h; exact absurd h (by simp)
      | some parent =>
        rw [hlookup] at h
        exact ih (Nat.le_add_left _ _) h

theorem lookup_edges_none (h : id ∉ opened log) :
    (edges log).lookup id = none := by
  rw [List.lookup_eq_none_iff]
  intro e he
  have hne : id ≠ e.1 := fun heq => h (heq ▸ List.mem_map_of_mem he)
  simpa using hne

/-- Following the parents gives the ancestors. -/
theorem rootsUp_eq (h : WellFormed root log) (hid : id = root ∨ id ∈ opened log) (roots : List ι) :
    rootsUp (edges log) root ((edges log).length + 1) id roots = some (paths log id ++ roots) := by
  induction h generalizing id roots with
  | nil =>
    obtain rfl : id = root := hid.resolve_right (by simp [opened, edges])
    simp [rootsUp, paths]
  | @fork log parent child hlog hparent hfresh hroot ih =>
    rw [edges_snoc_fork, List.length_append, paths_snoc, extendPath]
    by_cases hchild : id = child
    · subst hchild
      have hup := rootsUp_mono (Nat.le_refl _) (ih hparent (id :: roots)) [(id, parent)]
      rw [List.length_singleton, rootsUp, if_neg hroot, List.lookup_append,
        lookup_edges_none hfresh, Function.update_self, List.append_assoc]
      simpa using hup
    · rw [Function.update_of_ne hchild]
      refine rootsUp_mono (by simp) (ih ?_ roots) _
      refine hid.imp_right fun hmem => ?_
      rw [opened_snoc_fork] at hmem
      exact (List.mem_append.mp hmem).resolve_right (by simpa using hchild)
  | @data log i hlog hi bytes ih =>
    rw [opened_snoc_data] at hid
    rw [edges_snoc_data, paths_snoc]
    exact ih hid roots

/-! ## Reading a stream -/

/-- The first pass: from the forks up to the one that opens `id`, the ancestors of `id`
with `id` last. A map keeps the first parent of a stream. -/
def findRoots (root id : ι) : List (ι × ι) → List (Record ι α) → Option (List ι)
  | _, [] => none
  | parents, .fork parent child :: log =>
      if child = id then rootsUp parents root (parents.length + 1) parent [child]
      else findRoots root id (parents ++ [(child, parent)]) log
  | parents, .data _ _ :: log => findRoots root id parents log

/-- On to the next ancestor at the fork towards it. -/
def popFork (roots : List ι) (parent child : ι) : List ι :=
  match roots with
  | current :: next :: rest =>
      if parent = current ∧ child = next then next :: rest else current :: next :: rest
  | roots => roots

/-- One record in the second pass, with the ancestors left and what was collected. -/
def collect : List ι × List α → Record ι α → List ι × List α
  | (roots, out), .fork parent child => (popFork roots parent child, out)
  | (roots, out), .data id bytes => (roots, if roots.head? = some id then out ++ bytes else out)

/-- Both passes. -/
def read (root id : ι) (log : List (Record ι α)) (out : List α) : Option (List α) :=
  (findRoots root id [] log).map fun roots => (log.foldl collect (roots, out)).2

theorem findRoots_append (h : id ∉ opened log) (parents : List (ι × ι)) (more : List (Record ι α)) :
    findRoots root id parents (log ++ more) = findRoots root id (parents ++ edges log) more := by
  induction log generalizing parents with
  | nil => rw [List.nil_append, edges, List.filterMap_nil, List.append_nil]
  | cons r log ih =>
    cases r with
    | fork parent child =>
      have hopened : opened (.fork parent child :: log) = child :: opened log := rfl
      rw [hopened, List.mem_cons, not_or] at h
      have hedges : edges (.fork parent child :: log) = (child, parent) :: edges log := rfl
      rw [List.cons_append, findRoots, if_neg (Ne.symm h.1), ih h.2, hedges, List.append_assoc]
      rfl
    | data i bytes => exact ih h parents

theorem findRoots_mono (h : findRoots root id parents log = some roots) (more : List (Record ι α)) :
    findRoots root id parents (log ++ more) = some roots := by
  induction log generalizing parents with
  | nil => exact absurd h (by simp [findRoots])
  | cons r log ih =>
    cases r with
    | fork parent child =>
      rw [findRoots] at h
      rw [List.cons_append, findRoots]
      by_cases hchild : child = id
      · rwa [if_pos hchild] at h ⊢
      · rw [if_neg hchild] at h ⊢
        exact ih h
    | data i bytes => exact ih h

/-- The first pass finds the ancestors. -/
theorem findRoots_eq (h : WellFormed root log) (hid : id ∈ opened log) :
    findRoots root id [] log = some (paths log id) := by
  induction h generalizing id with
  | nil => exact absurd hid (by simp [opened, edges])
  | @fork log parent child hlog hparent hfresh hroot ih =>
    rw [paths_snoc, extendPath]
    by_cases hchild : id = child
    · subst hchild
      rw [findRoots_append hfresh, findRoots, if_pos rfl, List.nil_append,
        rootsUp_eq hlog hparent, Function.update_self]
    · rw [opened_snoc_fork] at hid
      have hmem := (List.mem_append.mp hid).resolve_right (by simpa using hchild)
      rw [Function.update_of_ne hchild]
      exact findRoots_mono (ih hmem) _
  | @data log i hlog hi bytes ih =>
    rw [opened_snoc_data] at hid
    rw [paths_snoc]
    exact findRoots_mono (ih hid) _

/-- The second pass, started with the ancestors of `id` and streams not opened yet below
them, ends at `id` with what `id` holds. -/
theorem foldl_collect (h : WellFormed root log) (hid : id = root ∨ id ∈ opened log) {below : List ι}
    (hbelow : ∀ b ∈ below, b ≠ root ∧ b ∉ opened log) (out : List α) :
    log.foldl collect (paths log id ++ below, out)
      = (if id = root then below else id :: below, out ++ contents log id) := by
  induction h generalizing id below with
  | nil =>
    obtain rfl : id = root := hid.resolve_right (by simp [opened, edges])
    simp [paths, contents]
  | @fork log parent child hlog hparent hfresh hroot ih =>
    rw [List.foldl_append, List.foldl_cons, List.foldl_nil, paths_snoc, extendPath, contents_snoc,
      extend]
    rw [opened_snoc_fork] at hid hbelow
    have hbelow' : ∀ b ∈ below, b ≠ root ∧ b ∉ opened log := fun b hb =>
      ⟨(hbelow b hb).1, fun hmem => (hbelow b hb).2 (List.mem_append_left _ hmem)⟩
    have hnew : child ∉ below := fun hmem => (hbelow child hmem).2 (by simp)
    by_cases hchild : id = child
    · -- The fork towards `id`: the reader is at the parent, or at no stream yet.
      subst hchild
      have hbelow'' : ∀ b ∈ id :: below, b ≠ root ∧ b ∉ opened log :=
        List.forall_mem_cons.mpr ⟨⟨hroot, hfresh⟩, hbelow'⟩
      rw [Function.update_self, Function.update_self, List.append_assoc, List.singleton_append,
        ih hparent hbelow'', if_neg hroot]
      by_cases hp : parent = root
      · have hne : parent ≠ id := hp ▸ hroot.symm
        rw [if_pos hp, collect]
        cases below with
        | nil => rfl
        | cons b below => rw [popFork, if_neg (fun hand => hne hand.1)]
      · rw [if_neg hp, collect, popFork, if_pos ⟨rfl, rfl⟩]
    · -- Another stream is opened: it is neither on the way to `id` nor below it.
      have hid' : id = root ∨ id ∈ opened log := hid.imp_right fun hmem =>
        (List.mem_append.mp hmem).resolve_right (by simpa using hchild)
      rw [Function.update_of_ne hchild, Function.update_of_ne hchild, ih hid' hbelow', collect]
      have hstay : ∀ b bs, (∀ x ∈ bs, x ≠ child) →
          popFork (b :: bs) parent child = b :: bs := by
        intro b bs hbs
        cases bs with
        | nil => rfl
        | cons b' bs =>
          rw [popFork, if_neg (fun hand => hbs b' List.mem_cons_self hand.2.symm)]
      have hne : ∀ x ∈ below, x ≠ child := fun x hx heq => hnew (heq ▸ hx)
      by_cases hr : id = root
      · rw [if_pos hr]
        cases hcases : below with
        | nil => rfl
        | cons b bs =>
          rw [hcases] at hne
          rw [hstay b bs (List.forall_mem_cons.mp hne).2]
      · rw [if_neg hr, hstay id below hne]
  | @data log i hlog hi bytes ih =>
    rw [opened_snoc_data] at hid hbelow
    rw [List.foldl_append, List.foldl_cons, List.foldl_nil, paths_snoc, contents_snoc, extend,
      extendPath, ih hid hbelow, collect]
    have hiroot : i ≠ root := fun heq => root_not_mem_opened hlog (heq ▸ hi)
    by_cases hr : id = root
    · have hhead : below.head? ≠ some i := fun heq =>
        (hbelow i (List.mem_of_mem_head? heq)).2 hi
      rw [if_pos hr, if_neg hhead, Function.update_of_ne (hr ▸ hiroot.symm)]
    · rw [if_neg hr, List.head?_cons]
      by_cases hi' : id = i
      · subst hi'
        rw [if_pos rfl, Function.update_self, List.append_assoc]
      · rw [if_neg (fun heq => hi' (Option.some.inj heq)), Function.update_of_ne hi']

/-- Both passes give what the stream holds. -/
theorem read_eq (h : WellFormed root log) (hid : id ∈ opened log) (out : List α) :
    read root id log out = some (out ++ contents log id) := by
  have hcollect := foldl_collect h (.inr hid) (List.forall_mem_nil _) out
  rw [List.append_nil] at hcollect
  rw [read, findRoots_eq h hid, Option.map_some, hcollect]

end ForkLog
