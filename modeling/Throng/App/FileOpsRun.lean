import Throng.App.FileOps
import Throng.Lib.Trail

/-!
# Undoing file operations puts the disk back

As long as nothing else changes the disk, the undo entries are the last steps that led to the disk
as it is, and the redo entries the steps that lead on. So no undo or redo is refused, and each takes
the disk to where it was before or after the operation.
-/

namespace Throng

namespace FileOps

open PathTree Trail

variable {Bin : Type} {trash : Trash Bin} {works : trash.Works} {disk disk' : FileDisk Bin}
  {tree tree' : FileTree} {source target path : FilePath} {files files' : Files Bin}

/-- An operation led from one tree to another. -/
def Led (before after : FileTree) : FileOp → Prop
  | .move source target =>
      before source ≠ none ∧ before target = none ∧
        (∃ front name, target = front ++ [name] ∧ FolderAt before front) ∧
        ¬ source <+: target ∧
        after = graft target (below source before) (prune source before)
  | .trash path _ => before path ≠ none ∧ path ≠ [] ∧ after = prune path before

/-! ## What the disk does -/

theorem isDir_iff : disk.isDir path = true ↔ FolderAt disk.tree path := by
  rw [FileDisk.isDir, Option.any_eq_true]
  rfl

theorem parent_isDir_iff : (target.parent.any disk.isDir) = true ↔
    ∃ front name, target = front ++ [name] ∧ FolderAt disk.tree front := by
  constructor
  · intro h
    obtain ⟨front, hfront, hdir⟩ := (Option.any_eq_true _ _).1 h
    rw [FilePath.parent] at hfront
    split_ifs at hfront with hnil
    cases hfront
    exact ⟨_, _, (List.dropLast_append_getLast hnil).symm, isDir_iff.1 hdir⟩
  · rintro ⟨front, name, rfl, hdir⟩
    rw [parent_append]
    exact isDir_iff.2 hdir

theorem rename_eq_ok (hne : source ≠ target) :
    disk.rename source target = .ok disk' ↔
      Led disk.tree disk'.tree (.move source target) ∧ disk'.bin = disk.bin := by
  rw [FileDisk.rename, Led]
  constructor
  · intro h
    split_ifs at h with htarget hsource hfolder hinside
    · cases h
      rw [Bool.not_eq_true, Bool.not_eq_false'] at hsource hfolder
      have hfree : disk.exists target = false :=
        Bool.eq_false_iff.2 fun hthere => htarget ⟨hthere, hne⟩
      exact ⟨⟨exists_iff.1 hsource, exists_eq_false.1 hfree, parent_isDir_iff.1 hfolder, hinside,
        rfl⟩, rfl⟩
  · rintro ⟨⟨hsource, htarget, hfolder, hinside, htree⟩, hbin⟩
    have hthere : ¬ (!true) = true := Bool.false_ne_true
    rw [exists_eq_false.2 htarget, exists_iff.2 hsource, parent_isDir_iff.2 hfolder,
      if_neg fun h => Bool.false_ne_true h.1, if_neg hthere, if_neg hne, if_neg hthere,
      if_neg hinside]
    obtain ⟨tree, bin⟩ := disk'
    dsimp only at htree hbin
    rw [htree, hbin]

theorem rename_of_led (h : Led disk.tree tree (.move source target)) :
    disk.rename source target = .ok { disk with tree } := by
  have hne : source ≠ target := by
    rintro rfl
    exact h.2.2.2.1 (List.prefix_refl _)
  exact (rename_eq_ok hne).2 ⟨h, rfl⟩

theorem checkMove_of_led (h : Led disk.tree tree (.move source target)) :
    checkMove disk source target = .ok () := by
  obtain ⟨hsource, htarget, ⟨front, name, rfl, hfolder⟩, -, -⟩ := h
  have hthere : ¬ (!true) = true := Bool.false_ne_true
  rw [checkMove, exists_iff.2 hsource, exists_eq_false.2 htarget, if_neg hthere,
    if_neg Bool.false_ne_true, parent_append, Option.filter_some, isDir_iff.2 hfolder]
  rfl

/-! ## One operation and back -/

theorem Led.closed {op : FileOp} (h : Led tree tree' op) (hclosed : Closed FileNode.isDir tree) :
    Closed FileNode.isDir tree' := by
  cases op with
  | move source target =>
      obtain ⟨-, -, ⟨front, name, rfl, hfolder⟩, hinside, rfl⟩ := h
      refine (hclosed.prune source).graft (hclosed.below source) ?_
      have hnot : ¬ source <+: front := fun hpre => hinside (hpre.trans (List.prefix_append _ _))
      rw [prune_apart hnot]
      exact hfolder
  | trash path token =>
      obtain ⟨-, -, rfl⟩ := h
      exact hclosed.prune path

/-- The folder of something that stands somewhere. -/
theorem exists_folder (hclosed : Closed FileNode.isDir tree) (hthere : tree path ≠ none)
    (hnil : path ≠ []) : ∃ front name, path = front ++ [name] ∧ FolderAt tree front := by
  have hpath := List.dropLast_append_getLast hnil
  refine ⟨_, _, hpath.symm, hclosed _ (path.getLast hnil) ?_⟩
  rwa [hpath]

theorem not_prefix_front (front : FilePath) (name : String) : ¬ front ++ [name] <+: front := by
  intro hpre
  have hlength := hpre.length_le
  rw [List.length_append, List.length_singleton] at hlength
  omega

/-- What was moved can be moved back, and then the tree is as it was. -/
theorem Led.move_back (h : Led tree tree' (.move source target))
    (hclosed : Closed FileNode.isDir tree) : Led tree' tree (.move target source) := by
  obtain ⟨hsource, htarget, -, hinside, rfl⟩ := h
  have hnil : source ≠ [] := by
    rintro rfl
    exact hinside List.nil_prefix
  have hoff : ¬ target <+: source := fun hpre => hsource (hclosed.eq_none htarget hpre)
  obtain ⟨front, name, rfl, hfolder⟩ := exists_folder hclosed hsource hnil
  have hoff' : ¬ target <+: front := fun hpre => hoff (hpre.trans (List.prefix_append _ _))
  refine ⟨?_, ?_, ⟨front, name, rfl, ?_⟩, hoff, ?_⟩
  · rw [graft_self, below, List.append_nil]
    exact hsource
  · rw [graft_apart hoff, prune_below (List.prefix_refl _)]
  · rw [FolderAt, graft_apart hoff', prune_apart (not_prefix_front front name)]
    exact hfolder
  · rw [below_graft, prune_graft, prune_comm, hclosed.prune_eq htarget, graft_below_prune]

/-- What was put in the trash can be put back, and then the tree is as it was. -/
theorem Led.trash_back {token : String} (h : Led tree tree' (.trash path token))
    (hclosed : Closed FileNode.isDir tree) :
    tree' path = none ∧ (∃ front name, path = front ++ [name] ∧ FolderAt tree' front) ∧
      graft path (below path tree) tree' = tree := by
  obtain ⟨hthere, hnil, rfl⟩ := h
  obtain ⟨front, name, rfl, hfolder⟩ := exists_folder hclosed hthere hnil
  refine ⟨prune_below (List.prefix_refl _), ⟨front, name, rfl, ?_⟩, graft_below_prune _ _⟩
  rw [FolderAt, prune_apart (not_prefix_front front name)]
  exact hfolder

/-! ## The trail of the history -/

/-- The trash holds an operation's item as it was. -/
def Held (entries : List (TrashItem × FileTree)) (before : FileTree) : FileOp → Prop
  | .move _ _ => True
  | .trash path token =>
      ∃ item, (item, below path before) ∈ entries ∧ item.id = token ∧ item.originalPath = path

/-- The trash's ids that the entries name. -/
def tokens : List FileOp → List String :=
  List.filterMap fun op =>
    match op with
    | .move _ _ => none
    | .trash _ token => some token

/-- An operation that was carried out on a tree. -/
def Done (op : FileOp) (before after : FileTree) : Prop :=
  Led before after op ∧ Closed FileNode.isDir before

/-- One that can be undone as well. -/
def Undoable (entries : List (TrashItem × FileTree)) (op : FileOp) (before after : FileTree) :
    Prop := Done op before after ∧ Held entries before op

/-- The entries are steps that lead to the tree and on from it, between trees that are closed. -/
structure Trailed (works : trash.Works) (files : Files Bin) (legs legs' : List (Leg FileTree)) :
    Prop where
  closed : Closed FileNode.isDir files.disk.tree
  behind : Behind (Undoable (works.entries files.disk.bin)) files.disk.tree files.history.undo legs
  ahead : Ahead Done files.disk.tree files.history.redo legs'
  tokens : (tokens files.history.undo).Nodup
  room : files.history.undo.length + files.history.redo.length ≤ fileHistoryLimit

variable {legs legs' : List (Leg FileTree)} {leg : Leg FileTree} {item : TrashItem}
  {content : FileTree} {entries entries' : List (TrashItem × FileTree)} {op : FileOp}
  {ops : List FileOp} {token : String}

theorem mem_tokens : token ∈ tokens ops ↔ ∃ path, .trash path token ∈ ops := by
  rw [tokens, List.mem_filterMap]
  constructor
  · rintro ⟨op, hop, htoken⟩
    cases op with
    | move source target => cases htoken
    | trash path other =>
        cases htoken
        exact ⟨path, hop⟩
  · rintro ⟨path, hop⟩
    exact ⟨_, hop, rfl⟩

theorem nodup_tokens_take (h : (tokens ops).Nodup) (n : Nat) : (tokens (ops.take n)).Nodup :=
  h.sublist ((List.take_sublist n ops).filterMap _)

/-- Another item in the trash is in nobody's way. -/
theorem Held.cons (h : Held entries tree op)
    (hnew : List.Perm entries' ((item, content) :: entries)) : Held entries' tree op := by
  cases op with
  | move source target => trivial
  | trash path token =>
      obtain ⟨held, hmem, hid, hpath⟩ := h
      exact ⟨held, hnew.mem_iff.2 (List.mem_cons_of_mem _ hmem), hid, hpath⟩

/-- An item that is put back was nobody else's. -/
theorem Held.drop (h : Held entries tree op)
    (hold : List.Perm entries ((item, content) :: entries'))
    (hother : ∀ path, op ≠ .trash path item.id) : Held entries' tree op := by
  cases op with
  | move source target => trivial
  | trash path token =>
      obtain ⟨held, hmem, rfl, hpath⟩ := h
      rcases List.mem_cons.1 (hold.mem_iff.1 hmem) with heq | hmem
      · cases heq
        exact absurd rfl (hother path)
      · exact ⟨held, hmem, rfl, hpath⟩

/-- An operation that is carried out has its leg behind it. -/
theorem Trailed.behind_cons (h : Trailed works files legs legs')
    (hled : Led files.disk.tree disk'.tree op)
    (hheld : Held (works.entries disk'.bin) files.disk.tree op)
    (hkept : ∀ other ∈ files.history.undo, ∀ before,
      Held (works.entries files.disk.bin) before other →
        Held (works.entries disk'.bin) before other) :
    Behind (Undoable (works.entries disk'.bin)) disk'.tree (op :: files.history.undo)
      (⟨files.disk.tree, disk'.tree⟩ :: legs) :=
  .cons rfl ⟨⟨hled, h.closed⟩, hheld⟩
    (h.behind.imp fun other hother before _ hstep => ⟨hstep.1, hkept other hother before hstep.2⟩)

/-- An operation that is recorded. -/
theorem Trailed.record (hbehind : Behind (Undoable (works.entries disk'.bin)) disk'.tree
      (op :: files.history.undo) (leg :: legs))
    (htokens : (FileOps.tokens (op :: files.history.undo)).Nodup)
    (hclosed : Closed FileNode.isDir disk'.tree) :
    Trailed works ⟨files.history.record op, disk'⟩ ((leg :: legs).take fileHistoryLimit) [] where
  closed := hclosed
  behind := hbehind.take fileHistoryLimit
  ahead := .nil
  tokens := nodup_tokens_take htokens _
  room := by
    rw [FileHistory.record, FileHistory.trim, List.take_nil, List.length_nil, Nat.add_zero]
    exact List.length_take_le _ _

theorem Trailed.move (h : Trailed works files legs legs') (hne : source ≠ target)
    (hok : files.disk.rename source target = .ok disk') :
    Trailed works ⟨files.history.record (.move source target), disk'⟩
      ((⟨files.disk.tree, disk'.tree⟩ :: legs).take fileHistoryLimit) [] := by
  obtain ⟨hled, hbin⟩ := (rename_eq_ok hne).1 hok
  refine Trailed.record (h.behind_cons hled trivial fun other _ before hheld => ?_) h.tokens
    (hled.closed h.closed)
  rw [hbin]
  exact hheld

/-- What goes to the trash is found there, under an id that no other item has. -/
theorem trash_spec (works : trash.Works) {drawn : Option String}
    (hok : disk.trashRestorable trash path = .ok (drawn, disk')) :
    ∃ item, drawn = some item.id ∧ item.originalPath = path ∧
      item.id ∉ ((works.entries disk.bin).map fun entry => entry.1.id) ∧
      Led disk.tree disk'.tree (.trash path item.id) ∧
      List.Perm (works.entries disk'.bin)
        ((item, below path disk.tree) :: works.entries disk.bin) := by
  obtain ⟨front, name, rfl, hfolder, hthere⟩ := works.exists_of_trashRestorable hok
  obtain ⟨item, bin, hpath, heq, hnew⟩ := works.trashRestorable_eq hfolder hthere
  rw [heq] at hok
  cases hok
  refine ⟨item, rfl, hpath, ?_, ⟨hthere, ?_, rfl⟩, hnew⟩
  · have hnodup := (hnew.map fun entry => entry.1.id).nodup_iff.1 (works.nodup bin)
    exact (List.nodup_cons.1 hnodup).1
  · exact List.append_ne_nil_of_right_ne_nil _ (List.cons_ne_nil _ _)

/-- A delete has its leg behind it, under an id that no other entry has. -/
theorem Trailed.behind_trash {drawn : Option String} (h : Trailed works files legs legs')
    (hok : files.disk.trashRestorable trash path = .ok (drawn, disk')) :
    ∃ token, drawn = some token ∧ Led files.disk.tree disk'.tree (.trash path token) ∧
      Behind (Undoable (works.entries disk'.bin)) disk'.tree
        (.trash path token :: files.history.undo) (⟨files.disk.tree, disk'.tree⟩ :: legs) ∧
      (FileOps.tokens (.trash path token :: files.history.undo)).Nodup := by
  obtain ⟨item, rfl, hpath, hfresh, hled, hnew⟩ := trash_spec works hok
  refine ⟨item.id, rfl, hled,
    h.behind_cons hled ?_ (fun other _ before hheld => hheld.cons hnew), ?_⟩
  · exact ⟨item, hnew.mem_iff.2 List.mem_cons_self, rfl, hpath⟩
  · refine List.nodup_cons.2 ⟨fun hmem => hfresh ?_, h.tokens⟩
    obtain ⟨other, hother⟩ := mem_tokens.1 hmem
    obtain ⟨before, after, -, held, hmem, hid, -⟩ := h.behind.exists_leg hother
    exact List.mem_map.2 ⟨_, hmem, hid⟩

theorem Trailed.delete {drawn : Option String} (h : Trailed works files legs legs')
    (hok : files.disk.trashRestorable trash path = .ok (drawn, disk')) :
    ∃ token, drawn = some token ∧
      Trailed works ⟨files.history.record (.trash path token), disk'⟩
        ((⟨files.disk.tree, disk'.tree⟩ :: legs).take fileHistoryLimit) [] := by
  obtain ⟨token, rfl, hled, hbehind, htokens⟩ := h.behind_trash hok
  exact ⟨token, rfl, Trailed.record hbehind htokens (hled.closed h.closed)⟩

/-! ## An undo and a redo that are carried out -/

theorem undo_of_move (hundo : files.history.undo = .move source target :: ops)
    (hled : Led files.disk.tree tree (.move target source)) :
    undo trash files = .ok (some (.moved target source,
      ⟨files.history.undone, { files.disk with tree }⟩)) := by
  rw [FileOps.undo, hundo]
  dsimp only
  rw [checkMove_of_led hled]
  dsimp only
  rw [rename_of_led hled]

theorem undo_of_trash {front : FilePath} {name : String}
    (hundo : files.history.undo = .trash (front ++ [name]) token :: ops)
    (hfolder : FolderAt files.disk.tree front)
    (hrestore : files.disk.restoreFromTrash trash token (front ++ [name]) = .ok disk') :
    undo trash files = .ok (some (.restored (front ++ [name]),
      ⟨files.history.undone, disk'⟩)) := by
  rw [FileOps.undo, hundo]
  dsimp only
  rw [parent_append, Option.filter_some, isDir_iff.2 hfolder]
  simp only [Bool.not_true, Bool.false_eq_true, if_false]
  rw [hrestore]

theorem redo_of_move (hredo : files.history.redo = .move source target :: ops)
    (hled : Led files.disk.tree tree (.move source target)) :
    redo trash files = .ok (some (.moved source target,
      ⟨files.history.redone (some (.move source target)), { files.disk with tree }⟩)) := by
  rw [FileOps.redo, hredo]
  dsimp only
  rw [checkMove_of_led hled]
  dsimp only
  rw [rename_of_led hled]

theorem redo_of_trash {again : String} (hredo : files.history.redo = .trash path token :: ops)
    (hthere : files.disk.tree path ≠ none)
    (htrash : files.disk.trashRestorable trash path = .ok (some again, disk')) :
    redo trash files = .ok (some (.trashed path,
      ⟨files.history.redone (some (.trash path again)), disk'⟩)) := by
  have hcan : ¬ (!true) = true := Bool.false_ne_true
  rw [FileOps.redo, hredo]
  dsimp only
  rw [exists_iff.2 hthere, if_neg hcan, htrash]
  rfl

/-- Undoing takes the tree to where it was before the newest operation. -/
theorem Trailed.undo (h : Trailed works files (leg :: legs) legs') :
    ∃ changed files', FileOps.undo trash files = .ok (some (changed, files')) ∧
      files'.disk.tree = leg.before ∧ Trailed works files' legs (leg :: legs') := by
  obtain ⟨op, rest, hundo, htree, ⟨⟨hled, hclosed⟩, hheld⟩, hbehind⟩ := h.behind.exists_cons
  have htokens := h.tokens
  have hroom := h.room
  rw [hundo] at htokens hroom
  have hhistory : files.history.undone = ⟨rest, op :: files.history.redo⟩ := by
    rw [FileHistory.undone, hundo]
  have hahead : Ahead Done leg.before (op :: files.history.redo) (leg :: legs') :=
    .cons rfl ⟨hled, hclosed⟩ (htree ▸ h.ahead)
  rw [htree] at hled
  cases op with
  | move source target =>
      refine ⟨_, _, undo_of_move hundo (hled.move_back hclosed), rfl, ?_⟩
      rw [hhistory]
      refine ⟨hclosed, hbehind, hahead, htokens, ?_⟩
      dsimp only
      rw [List.length_cons] at hroom ⊢
      omega
  | trash path token =>
      obtain ⟨hfree, ⟨front, name, hpath, hfolder⟩, hgraft⟩ := hled.trash_back hclosed
      obtain ⟨item, hmem, rfl, rfl⟩ := hheld
      obtain ⟨bin, hrestore, hold⟩ :=
        works.restoreFromTrash_eq hmem hfree ⟨front, name, hpath, hfolder⟩
      rw [hgraft] at hrestore
      rw [hpath] at hundo hrestore
      refine ⟨_, _, undo_of_trash hundo hfolder hrestore, rfl, ?_⟩
      rw [hhistory]
      have hapart : item.id ∉ FileOps.tokens rest ∧ (FileOps.tokens rest).Nodup :=
        List.nodup_cons.1 htokens
      refine ⟨hclosed, ?_, hahead, hapart.2, ?_⟩
      · refine hbehind.imp fun other hother before after hstep =>
          ⟨hstep.1, hstep.2.drop hold ?_⟩
        rintro place rfl
        exact hapart.1 (mem_tokens.2 ⟨place, hother⟩)
      · dsimp only
        rw [List.length_cons] at hroom ⊢
        omega

/-- Redoing takes the tree to where it was after the operation. -/
theorem Trailed.redo (h : Trailed works files legs (leg :: legs')) :
    ∃ changed files', FileOps.redo trash files = .ok (some (changed, files')) ∧
      files'.disk.tree = leg.after ∧ Trailed works files' (leg :: legs) legs' := by
  obtain ⟨op, rest, hredo, htree, ⟨hled, hclosed⟩, hahead⟩ := h.ahead.exists_cons
  have hroom := h.room
  rw [hredo, List.length_cons] at hroom
  have hhistory : ∀ op', files.history.redone (some op') = ⟨op' :: files.history.undo, rest⟩ := by
    intro op'
    rw [FileHistory.redone, FileHistory.trim, hredo]
    dsimp only
    rw [List.take_of_length_le, List.tail_cons, List.take_of_length_le]
    · omega
    · rw [List.length_cons]
      omega
  rw [htree] at hled
  cases op with
  | move source target =>
      refine ⟨_, _, redo_of_move hredo hled, rfl, ?_⟩
      rw [hhistory]
      refine ⟨hled.closed h.closed, ?_, hahead, h.tokens, ?_⟩
      · exact .cons rfl ⟨⟨htree ▸ hled, hclosed⟩, trivial⟩ (htree ▸ h.behind)
      · dsimp only
        rw [List.length_cons]
        omega
  | trash path token =>
      obtain ⟨disk', again, htrash⟩ : ∃ disk' again,
          files.disk.trashRestorable trash path = .ok (some again, disk') := by
        obtain ⟨front, name, rfl, node, hnode, -⟩ := exists_folder h.closed hled.1 hled.2.1
        have hfront : files.disk.tree front ≠ none := by
          rw [hnode]
          exact Option.some_ne_none node
        obtain ⟨item, bin, -, heq, -⟩ := works.trashRestorable_eq hfront hled.1
        exact ⟨_, _, heq⟩
      obtain ⟨_, hsame, hled', hbehind, htokens⟩ := h.behind_trash htrash
      cases hsame
      have hafter : disk'.tree = leg.after := hled'.2.2.trans hled.2.2.symm
      refine ⟨_, _, redo_of_trash hredo hled.1 htrash, hafter, ?_⟩
      rw [hhistory]
      have hleg : (⟨files.disk.tree, disk'.tree⟩ : Leg FileTree) = leg := by
        rw [hafter, ← htree]
      rw [hleg] at hbehind
      refine ⟨hled'.closed h.closed, hbehind, hafter ▸ hahead, htokens, ?_⟩
      dsimp only
      rw [List.length_cons]
      omega

/-! ## Runs -/

variable {action : Action} {actions walk : List Action}

theorem act_undo (h : Trailed works files legs legs') (hact : act trash files .undo = some files') :
    ∃ leg rest, legs = leg :: rest ∧ files'.disk.tree = leg.before ∧
      Trailed works files' rest (leg :: legs') := by
  cases legs with
  | nil =>
      rw [act, undo, h.behind.nil_iff.2 rfl] at hact
      cases hact
  | cons leg legs =>
      obtain ⟨changed, after, hundo, htree, htrailed⟩ := h.undo
      rw [act, hundo] at hact
      cases hact
      exact ⟨leg, legs, rfl, htree, htrailed⟩

theorem act_redo (h : Trailed works files legs legs') (hact : act trash files .redo = some files') :
    ∃ leg rest, legs' = leg :: rest ∧ files.disk.tree = leg.before ∧
      Trailed works files' (leg :: legs) rest := by
  cases legs' with
  | nil =>
      rw [act, redo, h.ahead.nil_iff.2 rfl] at hact
      cases hact
  | cons leg legs' =>
      obtain ⟨changed, after, hredo, -, htrailed⟩ := Trailed.redo h
      obtain ⟨-, -, -, hbefore, -⟩ := h.ahead.exists_cons
      rw [act, hredo] at hact
      cases hact
      exact ⟨leg, legs', rfl, hbefore.symm, htrailed⟩

/-- A move or a delete of the user's. -/
def Operates : Action → Prop
  | .move _ _ => True
  | .delete _ => True
  | _ => False

theorem act_operates (h : Trailed works files legs legs') (hop : Operates action)
    (hact : act trash files action = some files') :
    ∃ leg, leg.before = files.disk.tree ∧
      Trailed works files' ((leg :: legs).take fileHistoryLimit) [] := by
  cases action with
  | undo => exact hop.elim
  | redo => exact hop.elim
  | move source target =>
      rw [act] at hact
      split_ifs at hact with hne
      rw [perform] at hact
      cases hok : files.disk.rename source target with
      | error reason =>
          rw [hok] at hact
          cases hact
      | ok disk =>
          rw [hok] at hact
          cases hact
          exact ⟨_, rfl, h.move hne hok⟩
  | delete path =>
      rw [act, perform] at hact
      cases hok : files.disk.trashRestorable trash path with
      | error reason =>
          rw [hok] at hact
          cases hact
      | ok trashed =>
          obtain ⟨drawn, disk⟩ := trashed
          obtain ⟨token, rfl, htrailed⟩ := h.delete hok
          rw [hok] at hact
          cases hact
          exact ⟨_, rfl, htrailed⟩

theorem act_trailed (h : Trailed works files legs legs')
    (hact : act trash files action = some files') :
    ∃ legs legs', Trailed works files' legs legs' := by
  cases action with
  | undo =>
      obtain ⟨leg, rest, -, -, htrailed⟩ := act_undo h hact
      exact ⟨_, _, htrailed⟩
  | redo =>
      obtain ⟨leg, rest, -, -, htrailed⟩ := act_redo h hact
      exact ⟨_, _, htrailed⟩
  | move source target =>
      obtain ⟨leg, -, htrailed⟩ := act_operates h (by exact trivial) hact
      exact ⟨_, _, htrailed⟩
  | delete path =>
      obtain ⟨leg, -, htrailed⟩ := act_operates h (by exact trivial) hact
      exact ⟨_, _, htrailed⟩

theorem trailed_of_reach (works : trash.Works)
    (h : (machine trash).Reach Machine.anyStep files) :
    ∃ legs legs', Trailed works files legs legs' := by
  refine h.invariant (P := fun files => ∃ legs legs', Trailed works files legs legs') ?_ ?_
  · rintro ⟨history, disk⟩ ⟨rfl, hclosed⟩
    exact ⟨[], [], hclosed, .nil, .nil, List.nodup_nil, Nat.zero_le _⟩
  · rintro files action files' ⟨legs, legs', htrailed⟩ - hstep
    rw [machine, Option.some.injEq] at hstep
    cases hact : act trash files action with
    | none =>
        rw [hact] at hstep
        exact ⟨legs, legs', hstep ▸ htrailed⟩
    | some after =>
        rw [hact] at hstep
        exact hstep ▸ act_trailed htrailed hact

/-! ## Several at a time -/

theorem actAll_cons : actAll trash files (action :: actions) = some files' ↔
    ∃ after, act trash files action = some after ∧ actAll trash after actions = some files' := by
  rw [actAll, List.foldlM_cons, Option.bind_eq_bind, Option.bind_eq_some_iff]
  rfl

theorem take_append_take {α : Type*} (n : Nat) (new old : List α) :
    (new ++ old.take n).take n = (new ++ old).take n := by
  rw [List.take_append, List.take_append, List.take_take, Nat.min_eq_left (Nat.sub_le _ _)]

/-- Operations have their legs behind them, as far as they are kept. -/
theorem actAll_operates (h : Trailed works files legs legs') (hops : ∀ a ∈ actions, Operates a)
    (hall : actAll trash files actions = some files') :
    ∃ new : List (Leg (FileTree)), ∃ ahead,
      new.length = actions.length ∧ origin files'.disk.tree new = files.disk.tree ∧
        Trailed works files' ((new ++ legs).take fileHistoryLimit) ahead := by
  induction actions generalizing files legs legs' with
  | nil =>
      cases hall
      refine ⟨[], legs', rfl, rfl, ?_⟩
      have hroom := h.room
      rw [h.behind.length_eq] at hroom
      rw [List.nil_append, List.take_of_length_le (by omega)]
      exact h
  | cons action actions ih =>
      obtain ⟨after, hact, hrest⟩ := actAll_cons.1 hall
      obtain ⟨leg, hbefore, hafter⟩ := act_operates h (hops _ List.mem_cons_self) hact
      obtain ⟨new, ahead, hlength, horigin, htrailed⟩ :=
        ih hafter (fun a ha => hops a (List.mem_cons_of_mem _ ha)) hrest
      refine ⟨new ++ [leg], ahead, ?_, ?_, ?_⟩
      · rw [List.length_append, hlength, List.length_singleton, List.length_cons]
      · rw [origin_append]
        exact hbefore
      · have hkept : (new ++ [leg] ++ legs).take fileHistoryLimit =
            (new ++ (leg :: legs).take fileHistoryLimit).take fileHistoryLimit := by
          rw [List.append_assoc, take_append_take]
          rfl
        rw [hkept]
        exact htrailed

/-- An undo or redo. -/
def Walks (action : Action) : Prop := action = .undo ∨ action = .redo

/-- Undoing and redoing goes back and forth over the same legs. -/
theorem actAll_walks (h : Trailed works files legs legs') (hwalk : ∀ a ∈ walk, Walks a)
    (hall : actAll trash files walk = some files') :
    ∃ behind ahead, Trailed works files' behind ahead ∧
      behind.reverse ++ ahead = legs.reverse ++ legs' ∧
      behind.length + walk.count .undo = legs.length + walk.count .redo ∧
      origin files'.disk.tree behind = origin files.disk.tree legs := by
  induction walk generalizing files legs legs' with
  | nil =>
      cases hall
      exact ⟨legs, legs', h, rfl, rfl, rfl⟩
  | cons action walk ih =>
      obtain ⟨after, hact, hrest⟩ := actAll_cons.1 hall
      have hwalk' : ∀ a ∈ walk, Walks a := fun a ha => hwalk a (List.mem_cons_of_mem _ ha)
      rcases hwalk action List.mem_cons_self with rfl | rfl
      · obtain ⟨leg, rest, rfl, htree, htrailed⟩ := act_undo h hact
        obtain ⟨behind, ahead, hend, hlegs, hcount, horigin⟩ := ih htrailed hwalk' hrest
        refine ⟨behind, ahead, hend, ?_, ?_, ?_⟩
        · rw [hlegs, List.reverse_cons, List.append_assoc]
          rfl
        · rw [List.count_cons_self, List.count_cons_of_ne (by decide), List.length_cons]
          omega
        · rw [horigin, htree]
          rfl
      · obtain ⟨leg, rest, rfl, htree, htrailed⟩ := act_redo h hact
        obtain ⟨behind, ahead, hend, hlegs, hcount, horigin⟩ := ih htrailed hwalk' hrest
        refine ⟨behind, ahead, hend, ?_, ?_, ?_⟩
        · rw [hlegs, List.reverse_cons, List.append_assoc]
          rfl
        · rw [List.count_cons_self, List.count_cons_of_ne (by decide)]
          rw [List.length_cons] at hcount
          omega
        · rw [horigin, htree]
          rfl

/-- As many undos as legs are carried out. -/
theorem actAll_undo (h : Trailed works files legs legs') {n : Nat} (hn : n ≤ legs.length) :
    ∃ files', actAll trash files (List.replicate n .undo) = some files' := by
  induction n generalizing files legs legs' with
  | zero => exact ⟨files, rfl⟩
  | succ n ih =>
      cases legs with
      | nil => exact absurd hn (Nat.not_succ_le_zero n)
      | cons leg legs =>
          obtain ⟨changed, after, hundo, -, htrailed⟩ := h.undo
          obtain ⟨files', hall⟩ := ih htrailed (Nat.le_of_succ_le_succ hn)
          refine ⟨files', actAll_cons.2 ⟨after, ?_, hall⟩⟩
          rw [act, hundo]
          rfl

/-! ## Files to start from -/

/-- A note beside a folder. -/
def noteAndFolder : Files PlainBin where
  history := .empty
  disk :=
    { tree := fun path =>
        if path = [] ∨ path = ["old"] then some .dir
        else if path = ["note"] then some (.file [104, 105])
        else none
      bin := ⟨[], List.nodup_nil⟩ }

theorem noteAndFolder_reach : (machine plainTrash).Reach Machine.anyStep noteAndFolder := by
  refine .init ⟨rfl, fun path name hthere => ?_⟩
  have hpath : path = [] := by
    cases path with
    | nil => rfl
    | cons first rest =>
        refine absurd ?_ hthere
        simp [noteAndFolder]
  subst hpath
  exact ⟨.dir, rfl, rfl⟩

/-- No undo or redo is ever refused: there is nothing to undo or redo, or it is carried out. -/
theorem unrefused_of_reach (works : trash.Works)
    (h : (machine trash).Reach Machine.anyStep files) :
    (∃ undone, undo trash files = .ok undone ∧ (undone = none ↔ files.history.undo = [])) ∧
      ∃ redone, redo trash files = .ok redone ∧ (redone = none ↔ files.history.redo = []) := by
  obtain ⟨legs, legs', htrailed⟩ := trailed_of_reach works h
  constructor
  · cases legs with
    | nil =>
        have hnil := htrailed.behind.nil_iff.2 rfl
        exact ⟨none, by rw [undo, hnil], iff_of_true rfl hnil⟩
    | cons leg legs =>
        obtain ⟨changed, after, hundo, -⟩ := htrailed.undo
        refine ⟨_, hundo, iff_of_false (Option.some_ne_none _) fun hnil => ?_⟩
        cases htrailed.behind.nil_iff.1 hnil
  · cases legs' with
    | nil =>
        have hnil := htrailed.ahead.nil_iff.2 rfl
        exact ⟨none, by rw [redo, hnil], iff_of_true rfl hnil⟩
    | cons leg legs' =>
        obtain ⟨changed, after, hredo, -⟩ := Trailed.redo htrailed
        refine ⟨_, hredo, iff_of_false (Option.some_ne_none _) fun hnil => ?_⟩
        cases htrailed.ahead.nil_iff.1 hnil

theorem unrefused_of_reach_deleted :
    ∃ files', act plainTrash noteAndFolder (.delete ["note"]) = some files' ∧
      (∃ undone, undo plainTrash files' = .ok undone ∧ (undone = none ↔ files'.history.undo = [])) ∧
        ∃ redone, redo plainTrash files' = .ok redone ∧
          (redone = none ↔ files'.history.redo = []) := by
  obtain ⟨files', hact⟩ := Option.isSome_iff_exists.1
    (by decide +kernel : (act plainTrash noteAndFolder (.delete ["note"])).isSome = true)
  have hstep : (machine plainTrash).step noteAndFolder (.delete ["note"]) = some files' := by
    change some ((act plainTrash noteAndFolder (.delete ["note"])).getD noteAndFolder) = some files'
    rw [hact]
    rfl
  exact ⟨files', hact,
    unrefused_of_reach plainTrash_works (.step noteAndFolder_reach trivial hstep)⟩

/-- Operations can all be undone, as long as no more than are kept; and whichever way they are
undone and redone, undoing that many more than are redone puts the disk back. -/
theorem put_back_of_reach (works : trash.Works)
    (h : (machine trash).Reach Machine.anyStep files)
    (hops : ∀ a ∈ actions, Operates a) (hfew : actions.length ≤ fileHistoryLimit)
    (hall : actAll trash files actions = some files') :
    (∃ undone, actAll trash files' (List.replicate actions.length .undo) = some undone) ∧
      ∀ walk undone, (∀ a ∈ walk, Walks a) →
        walk.count .undo = walk.count .redo + actions.length →
        actAll trash files' walk = some undone → undone.disk.tree = files.disk.tree := by
  obtain ⟨legs, legs', htrailed⟩ := trailed_of_reach works h
  obtain ⟨new, ahead, hlength, horigin, hafter⟩ := actAll_operates htrailed hops hall
  have hkept : (new ++ legs).take fileHistoryLimit =
      new ++ legs.take (fileHistoryLimit - new.length) := by
    rw [List.take_append, List.take_of_length_le (by omega)]
  rw [hkept] at hafter
  constructor
  · refine actAll_undo hafter ?_
    rw [List.length_append]
    omega
  · intro walk undone hwalk hcount hwalked
    obtain ⟨behind, ahead', hend, hlegs, hlengths, hsame⟩ := actAll_walks hafter hwalk hwalked
    -- the legs behind are those from before the operations
    have hbehind : behind = legs.take (fileHistoryLimit - new.length) := by
      rw [List.length_append] at hlengths
      rw [List.reverse_append, List.append_assoc] at hlegs
      have hreverse := (List.append_inj hlegs (by
        rw [List.length_reverse, List.length_reverse]
        omega)).1
      rw [← List.reverse_reverse behind, hreverse, List.reverse_reverse]
    subst hbehind
    obtain ⟨rest, hrest⟩ := hafter.behind.of_append
    have htree := hend.behind.eq_of_origin hrest (hsame.trans (origin_append _ _ _))
    rw [htree, horigin]

/-- The note is moved into the folder, and the folder deleted. -/
def somewhereElse : List Action := [.move ["note"] ["old", "note"], .delete ["old"]]

theorem put_back_of_reach_note :
    ∃ files', actAll plainTrash noteAndFolder somewhereElse = some files' ∧
      (∃ undone, actAll plainTrash files' [.undo, .undo] = some undone) ∧
        ∀ walk undone, (∀ a ∈ walk, Walks a) → walk.count .undo = walk.count .redo + 2 →
          actAll plainTrash files' walk = some undone →
          undone.disk.tree = noteAndFolder.disk.tree := by
  obtain ⟨files', hall⟩ := Option.isSome_iff_exists.1
    (by decide +kernel : (actAll plainTrash noteAndFolder somewhereElse).isSome = true)
  refine ⟨files', hall, put_back_of_reach plainTrash_works noteAndFolder_reach ?_ (by decide) hall⟩
  intro a ha
  rcases List.mem_cons.1 ha with rfl | ha
  · exact trivial
  · rw [List.mem_singleton.1 ha]
    exact trivial

end FileOps

end Throng
