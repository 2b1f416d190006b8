import SkinnyArm.Rootfs.Links

/-!
The directory tree of an archive in find order.

* **The order.** In `FindOrder` the entry of a directory comes before the entries under it, and no
  two entries have the same path.
* **The claim on the tree.** `TreeRight`: every entry's parent is the entry of its directory, and
  the list of a directory's children is that of the entries right under it (`underneath`), in
  order.
* **The lookup.** The search compares last components, and only up to the end of the slot's own, so
  it finds the first entry whose last component is a prefix of the one looked for.  It is the
  directory's exactly if no entry before that has such a name (`parentAt_eq_iff`).
-/

namespace SkinnyArm

open Newc

/-- Directories come before what is under them, and paths are distinct. -/
structure FindOrder (ms : List Member) : Prop where
  directory : ∀ (k : ℕ) (m : Member), ms[k]? = some m → 2 ≤ m.path.length →
    ∃ j < k, ∃ d, ms[j]? = some d ∧ identType d.mode = .directory ∧ d.path = m.path.dropLast
  distinct : ∀ (j k : ℕ) (m m' : Member), ms[j]? = some m → ms[k]? = some m' →
    m.path = m'.path → j = k

/-- The entries right under a path, in the order of the archive. -/
def underneath (ms : List Member) (path : List (List (BitVec 8))) : List ℕ :=
  (List.range ms.length).filter fun k => ms[k]?.map (fun m => m.path.dropLast) = some path

/-- Every entry hangs under the entry of its directory, and the children of a directory are the
entries right under it. -/
structure TreeRight (s : List (BitVec 8)) (ms : List Member) (r : Ramfs) : Prop where
  own : OwnFiles s ms
  parent : ∀ j k d m, ms[j]? = some d → ms[k]? = some m → identType d.mode = .directory →
    d.path = m.path.dropLast → (r.files (slot k)).parent = some (slot j)
  children : ∀ j d, ms[j]? = some d → identType d.mode = .directory →
    (∀ i, (r.files (slot j)).link ≠ .inode i) ∧
      Siblings r.files (r.files (slot j)).link.children ((underneath ms d.path).map slot)

/-! ### Names in their buffers -/

section Names

variable {c : List (BitVec 8)}

lemma bytes_padName (hc : c.length ≤ 15) :
    (padName c).bytes = c ++ 0 :: List.replicate (15 - c.length) 0 := by
  have hlen : (padName c).bytes.length = 16 := List.length_ofFn
  refine List.ext_getElem? fun i => ?_
  by_cases hi : i < 16
  · rw [Name.bytes, List.getElem?_ofFn, dif_pos hi, padName, List.getD_eq_getElem?_getD]
    by_cases hic : i < c.length
    · rw [List.getElem?_append_left hic, List.getElem?_eq_getElem hic]
      rfl
    · rw [List.getElem?_append_right (not_lt.mp hic), List.getElem?_eq_none (not_lt.mp hic),
        ← List.replicate_succ, List.getElem?_replicate_of_lt (by omega)]
      rfl
  · rw [List.getElem?_eq_none (by omega), List.getElem?_eq_none (by simp; omega)]

/-- A component that fits is read back from its buffer. -/
lemma cstr_padName (hc : c.length ≤ 15) (h0 : 0 ∉ c) : cstr (padName c).bytes = c := by
  rw [bytes_padName hc, cstr_append_zero h0]

lemma padName_zero (h0 : 0 ∉ c) : padName c 0 = 0 ↔ c = [] := by
  cases c with
  | nil => exact ⟨fun _ => rfl, fun _ => rfl⟩
  | cons b c =>
      refine ⟨fun hb => absurd ?_ h0, fun hnil => absurd hnil (by simp)⟩
      have hhead : b = 0 := hb
      exact hhead ▸ List.mem_cons_self

end Names

/-! ### Lookups -/

section Lookup

variable {s : List (BitVec 8)} {ms : List Member} {t : Member} {j k : ℕ} {m d : Member}

lemma base_mem (hm : m.WellFormed) : m.base ∈ m.path := by
  rw [Member.base, List.getLast?_eq_some_getLast hm.path]
  exact List.getLast_mem hm.path

lemma parentComponent_clean (hm : Readable m) :
    m.parentComponent.length ≤ 15 ∧ 0 ∉ m.parentComponent := by
  rw [Member.parentComponent]
  cases hlast : m.path.dropLast.getLast? with
  | none => exact ⟨Nat.zero_le _, List.not_mem_nil⟩
  | some c =>
      have hc : c ∈ m.path := List.mem_of_mem_dropLast (List.mem_of_getLast? hlast)
      exact ⟨hm.fits c hc, (hm.wellFormed.component c hc).1⟩

/-- A directory's last component is the one looked for by what is under it. -/
lemma base_eq_parentComponent (hpath : d.path = m.path.dropLast) : d.base = m.parentComponent := by
  rw [Member.base, Member.parentComponent, hpath]

/-- An entry with a path of one component looks for nothing. -/
lemma parentAt_eq_none (hms : ∀ m ∈ ms, Readable m) (ht : IsTrailer t) (h : archive ms t <+: s)
    (hk : ms[k]? = some m) (hnil : m.parentComponent = []) : parentAt (entries s) k = none := by
  have hget := getElem?_entries hms ht h k
  rw [hk, Option.map_some] at hget
  rw [parentAt, hget, Option.bind_some, parentOf]
  refine if_pos ?_
  show padName m.parentComponent 0 = 0
  rw [hnil]
  rfl

/-- The names that a search meets in the slots loaded before. -/
lemma cstr_slotName (hms : ∀ m ∈ ms, Readable m) (ht : IsTrailer t) (h : archive ms t <+: s)
    {e : Entry} {i : ℕ} (hik : i < k) (hi : i < 256) (hmi : ms[i]? = some m) :
    cstr (slotName ((entries s).take k) e (slot i)).bytes = m.base := by
  have hm := hms m (List.mem_of_getElem? hmi)
  have hbase := base_mem hm.wellFormed
  have hget := getElem?_entries hms ht h i
  rw [hmi, Option.map_some] at hget
  have hlook : ((entries s).take k ++ [e])[i]? = some (memberEntry m (offset ms i)) :=
    getElem?_concat.mpr (.inl (by rw [List.getElem?_take_of_lt hik, hget]))
  have hslot : slotName ((entries s).take k) e (slot i) = padName m.base := by
    rw [slotName, val_slot hi, hlook]
    rfl
  rw [hslot, cstr_padName (hm.fits _ hbase) (hm.wellFormed.component _ hbase).1]

/-- **The parent** of an entry is its directory exactly if it looks for a name, and no entry before
the directory has a prefix of that name. -/
lemma parentAt_eq_iff (hms : ∀ m ∈ ms, Readable m) (ht : IsTrailer t) (h : archive ms t <+: s)
    (hlen : ms.length ≤ 256) (hj : ms[j]? = some d) (hk : ms[k]? = some m) (hjk : j < k)
    (hpath : d.path = m.path.dropLast) :
    parentAt (entries s) k = some (slot j) ↔
      m.parentComponent ≠ [] ∧
        ∀ i m', i < j → ms[i]? = some m' → ¬ m'.base <+: m.parentComponent := by
  have hklt := (List.getElem?_eq_some_iff.mp hk).1
  have hm := hms m (List.mem_of_getElem? hk)
  obtain ⟨hfits, hnul⟩ := parentComponent_clean hm
  have hname : ∀ i m', i ≤ j → ms[i]? = some m' →
      cstr (slotName ((entries s).take k) (memberEntry m (offset ms k)) (slot i)).bytes =
        m'.base := fun i m' hi hmi => cstr_slotName hms ht h (by omega) (by omega) hmi
  have hwanted : cstr (memberEntry m (offset ms k)).parentName.bytes = m.parentComponent :=
    cstr_padName hfits hnul
  have hgetk := getElem?_entries hms ht h k
  rw [hk, Option.map_some] at hgetk
  rw [parentAt, hgetk, Option.bind_some, parentOf]
  have hfirst : (memberEntry m (offset ms k)).parentName 0 = 0 ↔ m.parentComponent = [] :=
    padName_zero hnul
  by_cases hnil : m.parentComponent = []
  · rw [if_pos (hfirst.mpr hnil)]
    exact ⟨fun hh => absurd hh (by simp), fun hh => absurd hnil hh.1⟩
  rw [if_neg fun h0 => hnil (hfirst.mp h0), lookup, find?_slots_eq_some]
  simp only [decide_eq_true_eq, hwanted, hname j d le_rfl hj, base_eq_parentComponent hpath]
  constructor
  · rintro ⟨-, hbefore⟩
    refine ⟨hnil, fun i m' hi hmi hpre => ?_⟩
    refine hbefore (slot i) ?_ (by rwa [hname i m' hi.le hmi])
    rw [Fin.lt_def, val_slot (by omega), val_slot (by omega)]
    exact hi
  · rintro ⟨-, hbefore⟩
    refine ⟨List.prefix_rfl, fun i hi hpre => ?_⟩
    rw [Fin.lt_def, val_slot (by omega)] at hi
    have hmi : ms[i.val]? = some ms[i.val] := List.getElem?_eq_getElem (by omega)
    refine hbefore i.val _ hi hmi ?_
    rw [← hname i.val _ hi.le hmi, slot_val]
    exact hpre

/-! ### The tree -/

/-- The entry of a directory comes before what is under it. -/
lemma FindOrder.lt (hf : FindOrder ms) (hms : ∀ m ∈ ms, m.WellFormed) (hj : ms[j]? = some d)
    (hk : ms[k]? = some m) (hpath : d.path = m.path.dropLast) : j < k := by
  have hne : m.path.dropLast ≠ [] := hpath ▸ (hms d (List.mem_of_getElem? hj)).path
  have hlen : 2 ≤ m.path.length := by
    have hpos := List.length_pos_iff.mpr hne
    rw [List.length_dropLast] at hpos
    omega
  obtain ⟨j', hj'k, d', hj', -, hpath'⟩ := hf.directory k m hk hlen
  obtain rfl := hf.distinct j j' d d' hj hj' (hpath.trans hpath'.symm)
  exact hj'k

/-- The lookups of what is under a directory find it. -/
def FindsDirectories (ms : List Member) : Prop :=
  ∀ (j k : ℕ) (d m : Member), ms[j]? = some d → ms[k]? = some m →
    identType d.mode = .directory → d.path = m.path.dropLast →
      m.parentComponent ≠ [] ∧
        ∀ (i : ℕ) (m' : Member), i < j → ms[i]? = some m' → ¬ m'.base <+: m.parentComponent

/-- Where lookups find the directories, these list what is right under them. -/
lemma childrenOf_eq_underneath (hms : ∀ m ∈ ms, Readable m) (ht : IsTrailer t)
    (h : archive ms t <+: s) (hlen : ms.length ≤ 256) (hf : FindOrder ms)
    (hfinds : FindsDirectories ms) (hj : ms[j]? = some d)
    (hdir : identType d.mode = .directory) :
    inodeAt (entries s) j = none ∧ childrenOf (entries s) (slot j) = underneath ms d.path := by
  have hwf : ∀ m ∈ ms, m.WellFormed := fun m hm => (hms m hm).wellFormed
  have hcount := length_entries hms ht h
  have hjlt := (List.getElem?_eq_some_iff.mp hj).1
  have hget := getElem?_entries hms ht h j
  rw [hj, Option.map_some] at hget
  have hino : inodeAt (entries s) j = none := by
    rw [inodeAt, hget, Option.bind_some]
    by_contra hne
    have hregular : identType d.mode = .regular := ownInode_regular hne
    exact absurd (hdir.symm.trans hregular) (by simp)
  refine ⟨hino, ?_⟩
  rw [childrenOf, val_slot (by omega), if_neg (not_not.mpr hino), underneath, hcount]
  refine List.filter_congr fun k hk => decide_eq_decide.mpr ?_
  have hklt := List.mem_range.mp hk
  obtain ⟨m, hkm⟩ : ∃ m, ms[k]? = some m := ⟨_, List.getElem?_eq_getElem hklt⟩
  rw [hkm, Option.map_some, Option.some.injEq]
  constructor
  · rintro ⟨hpar, -⟩
    by_cases hlong : 2 ≤ m.path.length
    · obtain ⟨j', hj'k, d', hj', hdir', hpath'⟩ := hf.directory k m hkm hlong
      have hpar' := (parentAt_eq_iff hms ht h hlen hj' hkm hj'k hpath').mpr
        (hfinds j' k d' m hj' hkm hdir' hpath')
      have hslot := slot_eq_iff.mp (Option.some.inj (hpar.symm.trans hpar'))
      have hj'lt := (List.getElem?_eq_some_iff.mp hj').1
      obtain rfl : j = j' := by omega
      obtain rfl := Option.some.inj (hj.symm.trans hj')
      exact hpath'.symm
    · have hdrop : m.path.dropLast = [] := by
        rw [← List.length_eq_zero_iff, List.length_dropLast]
        omega
      have hnone := parentAt_eq_none hms ht h hkm (by rw [Member.parentComponent, hdrop]; rfl)
      exact absurd (hpar.symm.trans hnone) (by simp)
  · intro hpath
    have hjk := hf.lt hwf hj hkm hpath.symm
    exact ⟨(parentAt_eq_iff hms ht h hlen hj hkm hjk hpath.symm).mpr
      (hfinds j k d m hj hkm hdir hpath.symm), fun _ => hjk.le⟩

/-- **The directory tree** of an archive in find order, once `init_ramfs` returns 0, is right
exactly if the code understands every member and no entry before a directory has a last component
that is a prefix of the directory's, where something is under it. -/
theorem treeRight_iff {b : ℕ} {r : Ramfs} (hms : ∀ m ∈ ms, m.WellFormed)
    (hfits : ∀ m ∈ ms, ∀ c ∈ m.path, c.length ≤ 15) (hmode : ∀ m ∈ ms, identType m.mode ≠ .invalid)
    (hlen : ms.length ≤ 256) (hf : FindOrder ms) (ht : IsTrailer t) (h : archive ms t <+: s)
    (hdone : initRamfs s = .done b r) :
    TreeRight s ms r ↔
      (∀ m ∈ ms, IsUpperField m.filesize ∧ IsUpperField m.namesize ∧ ¬ endName <+: m.name) ∧
        FindsDirectories ms := by
  constructor
  · intro hright
    have hun := (scan_archive_iff hms ht h).mp hright.own.read
    have hms' : ∀ m ∈ ms, Readable m := fun m hm => ⟨hms m hm, hun m hm, hfits m hm⟩
    have hcount := length_entries hms' ht h
    have hr := tables_of_done hdone (hcount.trans_le hlen)
    refine ⟨fun m hm => ⟨(hun m hm).filesize, (hun m hm).namesize, (hun m hm).name⟩,
      fun j k d m hj hk hdir hpath => ?_⟩
    have hklt := (List.getElem?_eq_some_iff.mp hk).1
    have hpar := hright.parent j k d m hj hk hdir hpath
    rw [hr.parent k (by omega)] at hpar
    exact (parentAt_eq_iff hms' ht h hlen hj hk (hf.lt hms hj hk hpath) hpath).mp hpar
  · rintro ⟨hsizes, hfinds⟩
    have hun : ∀ m ∈ ms, Understood m := fun m hm =>
      ⟨(hsizes m hm).1, (hsizes m hm).2.1, hmode m hm, (hsizes m hm).2.2⟩
    have hms' : ∀ m ∈ ms, Readable m := fun m hm => ⟨hms m hm, hun m hm, hfits m hm⟩
    have hcount := length_entries hms' ht h
    have hr := tables_of_done hdone (hcount.trans_le hlen)
    constructor
    case own => exact ⟨(scan_archive_iff hms ht h).mpr hun, hlen⟩
    case parent =>
      intro j k d m hj hk hdir hpath
      have hklt := (List.getElem?_eq_some_iff.mp hk).1
      rw [hr.parent k (by omega)]
      exact (parentAt_eq_iff hms' ht h hlen hj hk (hf.lt hms hj hk hpath) hpath).mpr
        (hfinds j k d m hj hk hdir hpath)
    case children =>
      intro j d hj hdir
      have hjlt := (List.getElem?_eq_some_iff.mp hj).1
      obtain ⟨hino, hlist⟩ := childrenOf_eq_underneath hms' ht h hlen hf hfinds hj hdir
      refine ⟨fun i hi => ?_, ?_⟩
      · rw [hr.inode, val_slot (by omega), hino] at hi
        exact absurd hi (by simp)
      · have hchildren := hr.children (slot j)
        simp only [hlist] at hchildren
        exact hchildren

end Lookup

/-- Directories `a` and `ab`, and a file `ab/x` of one byte. -/
def prefixed : List Member :=
  [plainMember (digits 8 1) (digits 8 0x41ED) [[0x61]] [],
    plainMember (digits 8 2) (digits 8 0x41ED) [[0x61, 0x62]] [],
    plainMember (digits 8 3) (digits 8 0x81A4) [[0x61, 0x62], [0x78]] [0x2A]]

lemma prefixed_readable : ∀ m ∈ prefixed, Readable m := by
  intro m hm
  simp only [prefixed, List.mem_cons, List.not_mem_nil, or_false] at hm
  rcases hm with rfl | rfl | rfl
  all_goals exact readable_plainMember (length_digits 8 _) (length_digits 8 _) (by decide)

lemma prefixed_findOrder : FindOrder prefixed where
  directory k m hk hlong := by
    match k with
    | 0 =>
        obtain rfl := Option.some.inj hk
        exact absurd hlong (by decide)
    | 1 =>
        obtain rfl := Option.some.inj hk
        exact absurd hlong (by decide)
    | 2 =>
        obtain rfl := Option.some.inj hk
        exact ⟨1, by norm_num, _, rfl, by decide, rfl⟩
    | k + 3 => exact absurd hk (by simp [prefixed])
  distinct j k m m' hj hk hpath := by
    have hnodup : (prefixed.map Member.path).Nodup := by decide
    have hjlt := (List.getElem?_eq_some_iff.mp hj).1
    refine (List.getElem?_inj (by rwa [List.length_map]) hnodup).mp ?_
    rw [List.getElem?_map, List.getElem?_map, hj, hk, Option.map_some, Option.map_some, hpath]

lemma prefixed_lookupsResolve : LookupsResolve (archive prefixed trailer) := by
  have hentries := entries_archive prefixed_readable isTrailer_trailer
    (List.prefix_rfl (l := archive prefixed trailer))
  refine lookupsResolve_of_lookup (by rw [hentries]; simp [prefixed]) ?_
  rw [hentries]
  intro k e hget hpar
  match k with
  | 0 =>
      obtain rfl := Option.some.inj hget
      exact absurd (by decide) hpar
  | 1 =>
      obtain rfl := Option.some.inj hget
      exact absurd (by decide) hpar
  | 2 =>
      obtain rfl := Option.some.inj hget
      exact ⟨0, by decide +kernel, by decide +kernel⟩
  | k + 3 => exact absurd hget (by simp [prefixed])

lemma prefixed_done : ∃ r, initRamfs (archive prefixed trailer) =
    .done ((prefixed.flatMap Member.encode).length + 110) r := by
  have hprefix := List.prefix_rfl (l := archive prefixed trailer)
  have hcount := length_entries prefixed_readable isTrailer_trailer hprefix
  have hlen : prefixed.length ≤ 256 := by decide
  obtain ⟨r, hr, -⟩ := loadAll_of_lookupsResolve (hcount.trans_le hlen) prefixed_lookupsResolve
  exact ⟨r, (initRamfs_archive prefixed_readable isTrailer_trailer hprefix).mpr hr⟩

theorem treeRight_iff_prefixed :
    ∃ b r, initRamfs (archive prefixed trailer) = .done b r ∧
      (TreeRight (archive prefixed trailer) prefixed r ↔
        (∀ m ∈ prefixed, IsUpperField m.filesize ∧ IsUpperField m.namesize ∧
          ¬ endName <+: m.name) ∧ FindsDirectories prefixed) := by
  obtain ⟨r, hdone⟩ := prefixed_done
  exact ⟨_, r, hdone, treeRight_iff (fun m hm => (prefixed_readable m hm).wellFormed)
    (fun m hm => (prefixed_readable m hm).fits)
    (fun m hm => (prefixed_readable m hm).understood.mode) (by decide) prefixed_findOrder
    isTrailer_trailer List.prefix_rfl hdone⟩

/-- The file `ab/x` does not hang under `ab`. -/
theorem treeRight_fails :
    ∃ b r, initRamfs (archive prefixed trailer) = .done b r ∧
      (r.files (slot 2)).parent ≠ some (slot 1) ∧
      ¬ TreeRight (archive prefixed trailer) prefixed r := by
  obtain ⟨r, hdone⟩ := prefixed_done
  have hprefix := List.prefix_rfl (l := archive prefixed trailer)
  have hcount := length_entries prefixed_readable isTrailer_trailer hprefix
  have hlen : prefixed.length ≤ 256 := by decide
  have hr := tables_of_done hdone (hcount.trans_le hlen)
  have hwrong : (r.files (slot 2)).parent ≠ some (slot 1) := by
    intro hpar
    rw [hr.parent 2 (by rw [hcount]; decide)] at hpar
    have hfinds := (parentAt_eq_iff prefixed_readable isTrailer_trailer hprefix hlen (j := 1)
      (k := 2) rfl rfl (by norm_num) rfl).mp hpar
    exact hfinds.2 0 _ (by norm_num) rfl (by decide)
  exact ⟨_, r, hdone, hwrong, fun hright => hwrong (hright.parent 1 2 _ _ rfl rfl (by decide) rfl)⟩

end SkinnyArm
