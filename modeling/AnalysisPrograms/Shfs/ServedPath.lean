import AnalysisPrograms.Foundations.Paths
import AnalysisPrograms.Shfs.Outcome
import AnalysisPrograms.Shfs.SmallServer

namespace AnalysisPrograms.Shfs

open Foundations FiniteMap Bytes Paths

/-- A server over a file system without symbolic links, where every directory a path names
exists. -/
structure LexicalServer where
  server : Server
  root : List (List UInt8)
  isName : ∀ name ∈ root, IsName SLASH DOT name
  zero_notMem : ∀ name ∈ root, 0 ∉ name
  pathRoot_eq : server.pathRoot = absolute SLASH root
  realpath_eq : ∀ path found, server.fs.realpath path = some found → found = resolve SLASH DOT path
  root_isDir : server.fs.statIsDir (absolute SLASH root) = some true

def Under (root : List (List UInt8)) (path : List UInt8) : Prop :=
  ∃ more, more ≠ [] ∧ (∀ name ∈ more, IsName SLASH DOT name) ∧ path = absolute SLASH (root ++ more)

/-- What the item climbs above the root, it comes down again. -/
def staysInside (root : List (List UInt8)) (item : List UInt8) : Prop :=
  root.drop (root.length - (relative SLASH DOT (item.takeWhile (· ≠ 0))).1) <+:
    (relative SLASH DOT (item.takeWhile (· ≠ 0))).2

instance (root : List (List UInt8)) (item : List UInt8) : Decidable (staysInside root item) :=
  inferInstanceAs (Decidable (_ <+: _))

theorem staysInside_of_notMem (root : List (List UInt8)) {item : List UInt8}
    (h : [DOT, DOT] ∉ components SLASH (item.takeWhile (· ≠ 0))) : staysInside root item := by
  unfold staysInside
  rw [relative_fst SLASH DOT h, Nat.sub_zero, List.drop_length]
  exact List.nil_prefix

theorem isName_index : IsName SLASH DOT INDEX_FILE := by
  refine ⟨?_, ?_, ?_, ?_⟩ <;> decide

theorem under_absolute {root names : List (List UInt8)}
    (hroot : ∀ name ∈ root, IsName SLASH DOT name)
    (hnames : ∀ name ∈ names, IsName SLASH DOT name) :
    Under root (absolute SLASH names) ↔ root <+: names ∧ root ≠ names := by
  constructor
  · rintro ⟨more, hmore, hplain, heq⟩
    have hall : ∀ name ∈ root ++ more, IsName SLASH DOT name := by
      intro name hname
      rcases List.mem_append.mp hname with hname | hname
      · exact hroot name hname
      · exact hplain name hname
    have hsame := absolute_inj SLASH (fun n hn => ⟨(hnames n hn).ne_nil, (hnames n hn).sep_notMem⟩)
      (fun n hn => ⟨(hall n hn).ne_nil, (hall n hn).sep_notMem⟩) heq
    refine ⟨⟨more, hsame.symm⟩, fun h => hmore ?_⟩
    rw [← h] at hsame
    exact List.self_eq_append_right.mp hsame
  · rintro ⟨⟨more, rfl⟩, hne⟩
    refine ⟨more, ?_, fun name hname => hnames name (List.mem_append_right root hname), rfl⟩
    rintro rfl
    exact hne (List.append_nil root).symm

theorem servedPath_absolute {names : List (List UInt8)} (h : names ≠ []) (isDir : Bool) :
    servedPath (absolute SLASH names) isDir = absolute SLASH
      (if isDir then names ++ [INDEX_FILE] else names) := by
  cases isDir with
  | false => rfl
  | true => simp [servedPath, absolute, h]

theorem under_servedPath {root names : List (List UInt8)}
    (hroot : ∀ name ∈ root, IsName SLASH DOT name)
    (hnames : ∀ name ∈ names, IsName SLASH DOT name) (hne : names ≠ []) {isDir : Bool}
    (hdir : names = root → isDir = true) :
    Under root (servedPath (absolute SLASH names) isDir) ↔ root <+: names := by
  rw [servedPath_absolute hne]
  cases isDir with
  | false =>
    rw [if_neg Bool.false_ne_true, under_absolute hroot hnames]
    refine ⟨And.left, fun h => ⟨h, ?_⟩⟩
    rintro rfl
    cases hdir rfl
  | true =>
    have hserved : ∀ name ∈ names ++ [INDEX_FILE], IsName SLASH DOT name := by
      intro name hname
      rcases List.mem_append.mp hname with hname | hname
      · exact hnames name hname
      · rw [List.mem_singleton.mp hname]
        exact isName_index
    rw [if_pos rfl, under_absolute hroot hserved, List.prefix_concat_iff]
    constructor
    · rintro ⟨h | h, hneq⟩
      · exact absurd h hneq
      · exact h
    · intro h
      refine ⟨.inr h, ?_⟩
      rintro rfl
      have hlen := h.length_le
      rw [List.length_append, List.length_singleton] at hlen
      omega

namespace LexicalServer

variable (s : LexicalServer)

def below (item : List UInt8) : List (List UInt8) :=
  s.root.take (s.root.length - (relative SLASH DOT (item.takeWhile (· ≠ 0))).1) ++
    (relative SLASH DOT (item.takeWhile (· ≠ 0))).2

theorem prefix_below {item : List UInt8} : s.root <+: s.below item ↔ staysInside s.root item := by
  have hsplit :=
    List.take_append_drop (s.root.length - (relative SLASH DOT (item.takeWhile (· ≠ 0))).1) s.root
  unfold below staysInside
  nth_rewrite 1 [← hsplit]
  exact List.prefix_append_right_inj _

theorem takeWhile_path (rest : List UInt8) :
    (s.server.pathRoot ++ SLASH :: rest).takeWhile (· ≠ 0) =
      absolute SLASH s.root ++ SLASH :: rest.takeWhile (· ≠ 0) := by
  have hroot : ∀ b ∈ absolute SLASH s.root, b ≠ 0 := by
    intro b hb
    unfold absolute at hb
    split at hb
    · rw [List.mem_singleton.mp hb]
      decide
    · obtain ⟨name, hname, hb⟩ := List.mem_flatMap.mp hb
      rcases List.mem_cons.mp hb with rfl | hb
      · decide
      · exact fun h => s.zero_notMem name hname (h ▸ hb)
  rw [s.pathRoot_eq, List.takeWhile_append_of_pos (by simpa using hroot),
    List.takeWhile_cons_of_pos (by decide)]

theorem resolve_path (rest : List UInt8) :
    resolve SLASH DOT ((s.server.pathRoot ++ SLASH :: rest).takeWhile (· ≠ 0)) =
      absolute SLASH (s.below (SLASH :: rest)) := by
  have hcut : (SLASH :: rest).takeWhile (· ≠ 0) = SLASH :: rest.takeWhile (· ≠ 0) := by
    rw [List.takeWhile_cons_of_pos (by decide)]
  have hrel : relative SLASH DOT ((SLASH :: rest).takeWhile (· ≠ 0)) = relative SLASH DOT
      (rest.takeWhile (· ≠ 0)) := by
    rw [hcut, relative, components_sep_cons, relative]
  rw [s.takeWhile_path, resolve_append SLASH DOT s.isName, below, hrel]

theorem isName_below (item : List UInt8) : ∀ name ∈ s.below item, IsName SLASH DOT name := by
  have h := foldl_enter_climb DOT s.root (components SLASH (item.takeWhile (· ≠ 0))) (0, [])
  rw [Nat.sub_zero, List.take_length, List.append_nil] at h
  unfold below relative
  rw [← h]
  exact isName_of_foldl_enter SLASH DOT (fun _ hname => components_sub SLASH hname) s.isName

end LexicalServer

theorem openPath_cases {s : LexicalServer} {rest path : List UInt8}
    (h : openPath s.server (SLASH :: rest) = some (some path)) :
    ∃ isDir, s.server.fs.statIsDir (absolute SLASH (s.below (SLASH :: rest))) = some isDir ∧
      s.below (SLASH :: rest) ≠ [] ∧
      path = servedPath (absolute SLASH (s.below (SLASH :: rest))) isDir := by
  simp only [openPath, Option.bind_eq_bind, Option.bind_eq_some_iff] at h
  obtain ⟨-, -, h⟩ := h
  cases hreal : s.server.fs.realpath ((s.server.pathRoot ++ SLASH :: rest).takeWhile (· ≠ 0)) with
  | none => simp only [hreal, Option.some.injEq, reduceCtorEq] at h
  | some filepath =>
    obtain rfl := (s.realpath_eq _ _ hreal).trans (s.resolve_path rest)
    simp only [hreal, Option.bind_eq_some_iff, Option.guard_eq_some', Option.some.injEq] at h
    obtain ⟨-, hlast, isDir, hstat, -, -, hpath⟩ := h
    refine ⟨isDir, hstat, ?_, hpath.symm⟩
    intro hnil
    rw [hnil] at hlast
    exact hlast rfl

theorem openPath_under_iff (s : LexicalServer) {clt clt' : Client} {item path : List UInt8}
    (hparse : parseRequ s.server clt = some (clt', some item))
    (hopen : openPath s.server item = some (some path)) :
    Under s.root path ↔ staysInside s.root item := by
  obtain ⟨⟨rest, rfl⟩, -⟩ := (parseRequ_spec hparse).2 _ rfl
  obtain ⟨isDir, hstat, hne, rfl⟩ := openPath_cases hopen
  have hdir : s.below (SLASH :: rest) = s.root → isDir = true := by
    intro h
    rw [h, s.root_isDir] at hstat
    exact (Option.some.inj hstat).symm
  rw [under_servedPath s.isName (s.isName_below _) hne hdir, s.prefix_below]

def srvRoot : LexicalServer where
  server :=
    { oneFile hello with
      fs :=
        { realpath := fun path => some (resolve SLASH DOT path)
          statIsDir := fun path => some (decide (path = text "/srv"))
          contents := fun _ => some hello } }
  root := [text "srv"]
  isName := by
    intro name hname
    rw [List.mem_singleton.mp hname]
    refine ⟨?_, ?_, ?_, ?_⟩ <;> decide
  zero_notMem := by
    intro name hname
    rw [List.mem_singleton.mp hname]
    decide
  pathRoot_eq := by decide
  realpath_eq := by
    intro path found h
    exact (Option.some.inj h).symm
  root_isDir := by decide

def asking (requ : String) : Client :=
  { Client.zero with
    mRecvBuf :=
    ⟨some (blit (fun _ => 0) 0 (text requ)), 0, (text requ).length, (text requ).length + 1⟩ }

theorem dots_below_root :
    ∃ clt item path, parseRequ srvRoot.server (asking "GET /a/../b.txt HTTP/1.1\r\n\r\n") =
      some (clt, some item) ∧
      openPath srvRoot.server item = some (some path) ∧ Under srvRoot.root path := by
  have hparse : parseRequ srvRoot.server (asking "GET /a/../b.txt HTTP/1.1\r\n\r\n") =
      some ({ asking "GET /a/../b.txt HTTP/1.1\r\n\r\n" with mRequ := ⟨RM_HTTP_GET, 0⟩ },
        some (text "/a/../b.txt")) := by
    rfl
  have hopen : openPath srvRoot.server (text "/a/../b.txt") = some (some (text "/srv/b.txt")) := by
    decide
  exact ⟨_, _, _, hparse, hopen, (openPath_under_iff srvRoot hparse hopen).mpr (by decide)⟩

theorem dots_leave_root :
    ∃ clt item, parseRequ srvRoot.server (asking "GET /../etc/passwd HTTP/1.1\r\n\r\n") =
      some (clt, some item) ∧
      openPath srvRoot.server item = some (some (text "/etc/passwd")) ∧
      ¬Under srvRoot.root (text "/etc/passwd") := by
  refine ⟨{ asking "GET /../etc/passwd HTTP/1.1\r\n\r\n" with mRequ := ⟨RM_HTTP_GET, 0⟩ },
    text "/../etc/passwd", by rfl, by decide, ?_⟩
  rintro ⟨more, -, -, h⟩
  have hsecond : some 101 = some (115 : UInt8) := congrArg (fun path => path[1]?) h
  exact absurd hsecond (by decide)

end AnalysisPrograms.Shfs
