import Memoir.ImplLinker
import Mathlib.Data.List.Basic

/-! For which modules the linker and SSA destruction agree on names. -/
namespace Memoir

namespace MemoirType

def erased : MemoirType → MemoirType
  | struct name _ => struct name []
  | reference referenced => reference referenced.erased
  | staticTensor element lengths => staticTensor element.erased lengths
  | tensor element number => tensor element.erased number
  | assocArray key value => assocArray key.erased value.erased
  | sequence element => sequence element.erased
  | type => type

theorem same_iff : ∀ type type' : MemoirType, type.same type' = true ↔ type.erased = type'.erased
  | integer _,type' => by cases type' <;> simp [same,erased]
  | float,type' => by cases type' <;> simp [same,erased]
  | double,type' => by cases type' <;> simp [same,erased]
  | pointer,type' => by cases type' <;> simp [same,erased]
  | reference referenced,type' => by cases type' <;> simp [same,erased,same_iff referenced]
  | struct _ _,type' => by cases type' <;> simp [same,erased]
  | staticTensor element _,type' => by cases type' <;> simp [same,erased,same_iff element]
  | tensor element _,type' => by cases type' <;> simp [same,erased,same_iff element]
  | assocArray key value,type' => by
    cases type' <;> simp [same,erased,same_iff key,same_iff value]
  | sequence element,type' => by cases type' <;> simp [same,erased,same_iff element]

theorem getCode_erased : ∀ type : MemoirType, type.erased.getCode = type.getCode
  | reference referenced => by simp only [erased,getCode,getCode_erased referenced]
  | integer _ | float | double | pointer | struct _ _ | staticTensor _ _ | tensor _ _
  | assocArray _ _ | sequence _ => rfl

theorem getCode_same {type type' : MemoirType} (same : type.same type' = true) :
    type.getCode = type'.getCode := by
  rw [← getCode_erased type,← getCode_erased type',(same_iff type type').mp same]

end MemoirType

namespace ImplLinker
open TypeLayout

theorem cType_erased : ∀ type : MemoirType, memoirToCType type.erased = memoirToCType type
  | .reference referenced => by
    simp only [MemoirType.erased,memoirToCType,cType_erased referenced]
  | .integer _ | .float | .double | .pointer | .struct _ _ | .staticTensor _ _ | .tensor _ _
  | .assocArray _ _ | .sequence _ => rfl

theorem cType_same {type type' : MemoirType} (same : type.same type' = true) :
    memoirToCType type = memoirToCType type' := by
  rw [← cType_erased type,← cType_erased type',(MemoirType.same_iff type type').mp same]

theorem cType_isSome : ∀ type : MemoirType, (memoirToCType type).isSome = Elementary type
  | .reference referenced => by
    rw [Elementary,← cType_isSome referenced,memoirToCType]
    cases memoirToCType referenced <;> rfl
  | .integer _ | .float | .double | .pointer | .struct _ _ | .staticTensor _ _ | .tensor _ _
  | .assocArray _ _ | .sequence _ => rfl

theorem ownCType_erased : ∀ type : MemoirType, ownCType type.erased = ownCType type
  | .reference referenced => by
    simp only [MemoirType.erased,ownCType,ownCType_erased referenced]
  | .integer _ | .float | .double | .pointer | .struct _ _ | .staticTensor _ _ | .tensor _ _
  | .assocArray _ _ | .sequence _ => rfl

theorem ownCType_same {type type' : MemoirType} (same : type.same type' = true) :
    ownCType type = ownCType type' := by
  rw [← ownCType_erased type,← ownCType_erased type',(MemoirType.same_iff type type').mp same]

theorem ownCType_isSome : ∀ type : MemoirType, (ownCType type).isSome = Elementary type
  | .reference referenced => by
    rw [Elementary,← ownCType_isSome referenced,ownCType]
    cases ownCType referenced <;> rfl
  | .integer type => by cases type <;> rfl
  | .float | .double | .pointer | .struct _ _ | .staticTensor _ _ | .tensor _ _
  | .assocArray _ _ | .sequence _ => rfl

/-- The linker writes the type that the runtime declares, where there is one of the width. -/
theorem cType_own_iff : ∀ type : MemoirType, Elementary type = true →
    (memoirToCType type = ownCType type ↔ Declared type = true)
  | .reference referenced,elementary => by
    rw [Elementary] at elementary
    rw [Declared,← cType_own_iff referenced elementary]
    obtain ⟨cType,isType⟩ := Option.isSome_iff_exists.mp ((cType_isSome referenced).trans elementary)
    obtain ⟨own,isOwn⟩ := Option.isSome_iff_exists.mp ((ownCType_isSome referenced).trans elementary)
    simp [memoirToCType,ownCType,isType,isOwn]
  | .integer type,_ => by cases type <;> decide
  | .float,_ | .double,_ | .pointer,_ | .struct _ _,_ => by simp [memoirToCType,ownCType,Declared]

def words : MemoirType → List String
  | .reference referenced => words referenced ++ ["ref"]
  | type => [type.getCode]

theorem words_ne_nil (type : MemoirType) : words type ≠ [] := by
  cases type <;> simp [words]

theorem getCode_words : ∀ type : MemoirType, type.getCode = "_".intercalate (words type)
  | .reference referenced => by
    rw [words,String.intercalate_append_of_ne_nil (words_ne_nil referenced) (by simp),
      ← getCode_words referenced,MemoirType.getCode,String.intercalate_singleton,String.append_assoc]
    rfl
  | .integer _ | .float | .double | .pointer | .struct _ _ | .staticTensor _ _ | .tensor _ _
  | .assocArray _ _ | .sequence _ => String.intercalate_singleton.symm

theorem integer_word (type : IntegerType) : '_' ∉ (MemoirType.integer type).getCode.toList ∧
    (MemoirType.integer type).getCode ∉ ["f32","f64","ptr","struct","ref","collection"] := by
  cases type <;> decide

theorem integer_code {type type' : IntegerType}
    (same : (MemoirType.integer type).getCode = (MemoirType.integer type').getCode) : type = type' := by
  revert same
  cases type <;> cases type' <;> decide

theorem words_plain : ∀ type : MemoirType, ∀ word ∈ words type, '_' ∉ word.toList
  | .reference referenced,word,member => by
    rcases List.mem_append.mp member with inside | last
    · exact words_plain referenced word inside
    · obtain rfl := List.mem_singleton.mp last
      decide
  | .integer type,word,member => by
    obtain rfl := List.mem_singleton.mp member
    exact (integer_word type).1
  | .float,word,member | .double,word,member | .pointer,word,member => by
    obtain rfl := List.mem_singleton.mp member
    decide
  | .struct _ _,word,member => by
    obtain rfl : word = "struct" := List.mem_singleton.mp member
    decide
  | .staticTensor _ _,word,member | .tensor _ _,word,member | .assocArray _ _,word,member
  | .sequence _,word,member => by
    obtain rfl : word = "collection" := List.mem_singleton.mp member
    decide

theorem intercalate_injective {words words' : List String} (nonempty : words ≠ [])
    (nonempty' : words' ≠ []) (plain : ∀ word ∈ words, '_' ∉ word.toList)
    (plain' : ∀ word ∈ words', '_' ∉ word.toList)
    (same : "_".intercalate words = "_".intercalate words') : words = words' := by
  have lists := congrArg (List.splitOn '_') (congrArg String.toList same)
  rw [String.toList_intercalate,String.toList_intercalate] at lists
  have single : "_".toList = ['_'] := rfl
  rw [single,List.splitOn_intercalate _ (by simpa using plain) (by simpa using nonempty),
    List.splitOn_intercalate _ (by simpa using plain') (by simpa using nonempty')] at lists
  exact List.map_injective_iff.mpr (fun _ _ => String.toList_inj.mp) lists

theorem getCode_injective {type type' : MemoirType} :
    type.getCode = type'.getCode ↔ words type = words type' := by
  rw [getCode_words type,getCode_words type']
  exact ⟨intercalate_injective (words_ne_nil type) (words_ne_nil type') (words_plain type)
    (words_plain type'),congrArg _⟩

/-- The word that a type is a reference to. -/
theorem words_shape : ∀ type : MemoirType, ∃ word count,
    words type = word :: List.replicate count "ref" ∧ word ≠ "ref"
  | .reference referenced => by
    obtain ⟨word,count,same,plain⟩ := words_shape referenced
    exact ⟨word,count + 1,by rw [words,same,List.replicate_succ',List.cons_append],plain⟩
  | .integer type => ⟨_,0,rfl,fun same => (integer_word type).2 (by simp [same])⟩
  | .float | .double | .pointer => ⟨_,0,rfl,by decide⟩
  | .struct _ _ => ⟨"struct",0,rfl,by decide⟩
  | .staticTensor _ _ | .tensor _ _ | .assocArray _ _ | .sequence _ => ⟨"collection",0,rfl,by decide⟩

theorem references_inner {α : Type} {reference other other' : α} {count count' more more' : Nat}
    (plain : other ≠ reference) (plain' : other' ≠ reference)
    (same : List.replicate count reference ++ other :: List.replicate more reference =
      List.replicate count' reference ++ other' :: List.replicate more' reference) :
    count = count' ∧ other = other' ∧ more = more' := by
  induction count generalizing count' with
  | zero =>
    cases count' with
    | zero =>
      obtain ⟨isOther,rest⟩ := List.cons.inj same
      exact ⟨rfl,isOther,by simpa using congrArg List.length rest⟩
    | succ count' => exact absurd (List.cons.inj same).1 plain
  | succ count ih =>
    cases count' with
    | zero => exact absurd (List.cons.inj same).1.symm plain'
    | succ count' =>
      obtain ⟨rfl,rest⟩ := ih (List.cons.inj same).2
      exact ⟨rfl,rest⟩

/-- A code does not end within another one. -/
theorem references_split {α : Type} {reference word word' other other' : α} {count count' more more' : Nat}
    (plain : other ≠ reference) (plain' : other' ≠ reference)
    (same : word :: List.replicate count reference ++ other :: List.replicate more reference =
      word' :: List.replicate count' reference ++ other' :: List.replicate more' reference) :
    word = word' ∧ count = count' ∧ other = other' ∧ more = more' :=
  ⟨(List.cons.inj same).1,references_inner plain plain' (List.cons.inj same).2⟩

theorem pair_injective {key value key' value' : MemoirType} :
    key.getCode ++ "_" ++ value.getCode = key'.getCode ++ "_" ++ value'.getCode ↔
      key.getCode = key'.getCode ∧ value.getCode = value'.getCode := by
  constructor
  · intro same
    have joined (first second : MemoirType) : first.getCode ++ "_" ++ second.getCode =
        "_".intercalate (words first ++ words second) := by
      rw [String.intercalate_append_of_ne_nil (words_ne_nil first) (words_ne_nil second),
        ← getCode_words,← getCode_words]
    have plain (first second : MemoirType) (word : String) (member : word ∈ words first ++ words second) :
        '_' ∉ word.toList :=
      (List.mem_append.mp member).elim (words_plain first word) (words_plain second word)
    rw [joined,joined] at same
    have split := intercalate_injective (by simp [words_ne_nil]) (by simp [words_ne_nil])
      (plain key value) (plain key' value') same
    rw [getCode_injective,getCode_injective]
    obtain ⟨word,count,isKey,_⟩ := words_shape key
    obtain ⟨word',count',isKey',_⟩ := words_shape key'
    obtain ⟨other,more,isValue,apart⟩ := words_shape value
    obtain ⟨other',more',isValue',apart'⟩ := words_shape value'
    rw [isKey,isKey',isValue,isValue'] at split ⊢
    obtain ⟨rfl,rfl,rfl,rfl⟩ := references_split apart apart' split
    exact ⟨rfl,rfl⟩
  · rintro ⟨isKey,isValue⟩
    rw [isKey,isValue]

/-- Codes tell everything about an elementary type but its struct. -/
theorem alike_iff : ∀ type type' : MemoirType, Elementary type → Elementary type' →
    (Alike type type' = true ↔ words type = words type')
  | .reference referenced,type',elementary,elementary' => by
    cases type' with
    | reference referenced' =>
      rw [Alike,alike_iff referenced referenced' elementary elementary',words,words,
        List.append_left_inj]
    | integer _ | float | double | pointer | struct _ _ | staticTensor _ _ | tensor _ _
    | assocArray _ _ | sequence _ => simp [Alike,words,List.append_eq_singleton_iff,words_ne_nil]
  | .integer type,type',_,elementary' => by
    cases type' with
    | integer type' =>
      simp only [Alike,decide_eq_true_eq,words,List.cons.injEq,and_true]
      exact ⟨fun isSame => by rw [isSame],integer_code⟩
    | reference referenced' =>
      simp [Alike,words,List.singleton_eq_append_iff,words_ne_nil]
    | float | double | pointer | struct _ _ =>
      refine iff_of_false (by simp [Alike]) fun isSame => (integer_word type).2 ?_
      rw [(List.cons.inj isSame).1]
      simp [MemoirType.getCode]
    | staticTensor _ _ | tensor _ _ | assocArray _ _ | sequence _ =>
      exact absurd elementary' (by simp [Elementary])
  | .float,type',_,elementary' | .double,type',_,elementary' | .pointer,type',_,elementary'
  | .struct _ _,type',_,elementary' => by
    cases type' with
    | integer type' =>
      refine iff_of_false (by simp [Alike]) fun isSame => (integer_word type').2 ?_
      rw [← (List.cons.inj isSame).1]
      simp [MemoirType.getCode]
    | reference referenced' =>
      simp [Alike,words,List.singleton_eq_append_iff,words_ne_nil]
    | float | double | pointer | struct _ _ => simp [Alike,words,MemoirType.getCode]
    | staticTensor _ _ | tensor _ _ | assocArray _ _ | sequence _ =>
      exact absurd elementary' (by simp [Elementary])

/-- What is kept of some values: one of each kind. -/
structure Represents {α : Type} (same : α → α → Bool) (values kept : List α) : Prop where
  member : ∀ value ∈ kept, value ∈ values
  found : ∀ value ∈ values, ∃ other ∈ kept, same value other = true
  apart : kept.Pairwise fun value later => same later value = false

section
variable {α γ : Type} {same : α → α → Bool} {kind : α → γ} {values kept : List α}

theorem Represents.nil : Represents same [] [] :=
  ⟨fun _ member => member,fun _ member => absurd member (by simp),.nil⟩

theorem Represents.insert (represents : Represents same values kept)
    (same_iff : ∀ value other, same value other = true ↔ kind value = kind other) (value : α) :
    Represents same (values ++ [value]) (insertUnique same kept value) := by
  unfold insertUnique
  split_ifs with there
  · obtain ⟨other,member,isSame⟩ := List.any_eq_true.mp there
    refine ⟨fun x isKept => List.mem_append_left _ (represents.member x isKept),?_,represents.apart⟩
    intro x isValue
    rcases List.mem_append.mp isValue with old | new
    · exact represents.found x old
    · obtain rfl := List.mem_singleton.mp new
      exact ⟨other,member,isSame⟩
  · refine ⟨?_,?_,?_⟩
    · intro x isKept
      rcases List.mem_append.mp isKept with old | new
      · exact List.mem_append_left _ (represents.member x old)
      · exact List.mem_append_right _ new
    · intro x isValue
      rcases List.mem_append.mp isValue with old | new
      · obtain ⟨other,member,isSame⟩ := represents.found x old
        exact ⟨other,List.mem_append_left _ member,isSame⟩
      · exact ⟨x,List.mem_append_right _ new,(same_iff x x).mpr rfl⟩
    · rw [List.pairwise_append]
      refine ⟨represents.apart,List.pairwise_singleton _ _,fun x isKept y isNew => ?_⟩
      obtain rfl := List.mem_singleton.mp isNew
      by_contra isSame
      exact there (List.any_eq_true.mpr ⟨x,isKept,by simpa using isSame⟩)

/-- A name is kept once if one kind of values has it. -/
theorem Represents.once_iff {β : Type} [DecidableEq β] {name : α → β}
    (represents : Represents same values kept)
    (same_iff : ∀ value other, same value other = true ↔ kind value = kind other)
    (named : ∀ value other, same value other = true → name value = name other) {value : α}
    (isValue : value ∈ values) :
    (kept.filter fun other => name other = name value).length = 1 ↔
      ∀ other ∈ values, name other = name value → same value other = true := by
  have representative (other : α) (member : other ∈ values) (isName : name other = name value) :
      ∃ x ∈ kept.filter fun x => name x = name value, same other x = true := by
    obtain ⟨x,isKept,isSame⟩ := represents.found other member
    exact ⟨x,List.mem_filter.mpr ⟨isKept,by simp [← named other x isSame,isName]⟩,isSame⟩
  constructor
  · intro once other member isName
    obtain ⟨only,isOnly⟩ := List.length_eq_one_iff.mp once
    obtain ⟨x,isKept,isSame⟩ := representative value isValue rfl
    obtain ⟨y,isKept',isSame'⟩ := representative other member isName
    rw [isOnly,List.mem_singleton] at isKept isKept'
    rw [same_iff] at isSame isSame' ⊢
    rw [isSame,isSame',isKept,isKept']
  · intro all
    obtain ⟨x,isKept,_⟩ := representative value isValue rfl
    have apart := represents.apart.filter fun other => decide (name other = name value)
    cases isFilter : kept.filter fun other => name other = name value with
    | nil => exact absurd isKept (by simp [isFilter])
    | cons first rest =>
      cases rest with
      | nil => rfl
      | cons second rest =>
        rw [isFilter] at apart
        have differ := (List.pairwise_cons.mp apart).1 second (by simp)
        have alike (other : α) (member : other ∈ first :: second :: rest) : kind value = kind other := by
          rw [← isFilter,List.mem_filter] at member
          exact (same_iff _ _).mp (all other (represents.member other member.1) (by simpa using member.2))
        have isSame := (same_iff second first).mpr
          ((alike second (by simp)).symm.trans (alike first (by simp)))
        exact absurd (isSame.symm.trans differ) (by simp)

end

def Inst.seqs : Inst → List (String × MemoirType)
  | sequenceAlloc element => [(seqImpl,element)]
  | assocAlloc key _ => [(seqImpl,key)]
  | _ => []

def Inst.assocs : Inst → List (String × MemoirType × MemoirType)
  | assocAlloc key value => [(assocImpl,key,value)]
  | _ => []

def Inst.Convertible : Inst → Prop
  | sequenceAlloc element => (convert element).isSome
  | assocAlloc key value => (convert key).isSome ∧ (convert value).isSome
  | defineStruct name fields => (convert (.struct name fields)).isSome
  | other => True

structure Collected (insts : List Inst) (linker : Linker) : Prop where
  structs : ∀ type ∈ linker.structImplementations, ∃ name fields, type = .struct name fields
  seqs : Represents sameSeq (insts.flatMap Inst.seqs) linker.seqImplementations
  assocs : Represents sameAssoc (insts.flatMap Inst.assocs) linker.assocImplementations

theorem sameSeq_iff (first second : String × MemoirType) : sameSeq first second = true ↔
    (first.1,first.2.erased) = (second.1,second.2.erased) := by
  simp [sameSeq,MemoirType.same_iff]

theorem sameAssoc_iff (first second : String × MemoirType × MemoirType) :
    sameAssoc first second = true ↔ (first.1,first.2.1.erased,first.2.2.erased) =
      (second.1,second.2.1.erased,second.2.2.erased) := by
  simp [sameAssoc,MemoirType.same_iff,and_assoc]

theorem struct_of_layout {type : MemoirType} {layout : Layout} (converted : convert type = some layout)
    {name : String} {elements : List LlvmType} (isStruct : layout.llvmType = .struct name elements) :
    ∃ name fields, type = .struct name fields := by
  cases type with
  | struct name fields => exact ⟨name,fields,rfl⟩
  | integer _ | float | double | pointer =>
    obtain rfl := Option.some.inj converted
    exact absurd isStruct (by simp [visitIntegerType])
  | tensor _ _ | assocArray _ _ | sequence _ => exact absurd converted (by simp [convert])
  | reference referenced =>
    simp only [convert,Option.bind_eq_bind,Option.bind_eq_some_iff] at converted
    obtain ⟨_,_,same⟩ := converted
    obtain rfl := Option.some.inj same
    exact absurd isStruct (by simp)
  | staticTensor element lengths =>
    rcases lengths with _ | ⟨length,_ | ⟨length',lengths⟩⟩
    · exact absurd converted (by simp [convert])
    · simp only [convert,Option.bind_eq_bind,Option.bind_eq_some_iff] at converted
      obtain ⟨_,_,same⟩ := converted
      obtain rfl := Option.some.inj same
      exact absurd isStruct (by simp)
    · exact absurd converted (by simp [convert])

section
variable {insts : List Inst} {linker : Linker}

theorem implementType_structs (structs : ∀ type ∈ linker.structImplementations,
      ∃ name fields, type = .struct name fields) {type : MemoirType} {layout : Layout}
    (converted : convert type = some layout) :
    ∀ type' ∈ (linker.implementType type layout).structImplementations,
      ∃ name fields, type' = .struct name fields := by
  unfold Linker.implementType
  split
  · rename_i isStruct
    intro type' member
    simp only [insertUnique] at member
    split_ifs at member
    · exact structs type' member
    · rcases List.mem_append.mp member with old | new
      · exact structs type' old
      · obtain rfl := List.mem_singleton.mp new
        exact struct_of_layout converted isStruct
  · exact structs

theorem implementType_seqs (linker : Linker) (type : MemoirType) (layout : Layout) :
    (linker.implementType type layout).seqImplementations = linker.seqImplementations := by
  unfold Linker.implementType
  split <;> rfl

theorem implementType_assocs (linker : Linker) (type : MemoirType) (layout : Layout) :
    (linker.implementType type layout).assocImplementations = linker.assocImplementations := by
  unfold Linker.implementType
  split <;> rfl

/-- One instruction. -/
theorem Collected.visit (collected : Collected insts linker) {inst : Inst} {after : Linker}
    (visited : visit linker inst = some after) :
    Collected (insts ++ [inst]) after ∧ inst.Convertible := by
  cases inst with
  | other =>
    obtain rfl := Option.some.inj visited
    exact ⟨⟨collected.structs,by simpa [Inst.seqs] using collected.seqs,
      by simpa [Inst.assocs] using collected.assocs⟩,trivial⟩
  | defineStruct name fields =>
    simp only [ImplLinker.visit,Option.bind_eq_bind,Option.bind_eq_some_iff] at visited
    obtain ⟨layout,converted,same⟩ := visited
    obtain rfl := Option.some.inj same
    refine ⟨⟨implementType_structs collected.structs converted,?_,?_⟩,by simp [Inst.Convertible,converted]⟩
    · rw [implementType_seqs]
      simpa [Inst.seqs] using collected.seqs
    · rw [implementType_assocs]
      simpa [Inst.assocs] using collected.assocs
  | sequenceAlloc element =>
    simp only [ImplLinker.visit,Option.bind_eq_bind,Option.bind_eq_some_iff] at visited
    obtain ⟨layout,converted,same⟩ := visited
    obtain rfl := Option.some.inj same
    refine ⟨⟨implementType_structs collected.structs converted,?_,?_⟩,by simp [Inst.Convertible,converted]⟩
    · simp only [Linker.implementSeq,implementType_seqs,List.flatMap_append,List.flatMap_singleton,Inst.seqs]
      exact collected.seqs.insert sameSeq_iff _
    · simp only [Linker.implementSeq,implementType_assocs,List.flatMap_append,List.flatMap_singleton,
        Inst.assocs,List.append_nil]
      exact collected.assocs
  | assocAlloc key value =>
    simp only [ImplLinker.visit,Option.bind_eq_bind,Option.bind_eq_some_iff] at visited
    obtain ⟨keyLayout,converted,valueLayout,converted',same⟩ := visited
    obtain rfl := Option.some.inj same
    have isImpl : assocImpl = "stl_unordered_map" := rfl
    simp only [Linker.implementAssoc,if_pos isImpl]
    refine ⟨⟨?_,?_,?_⟩,by simp [Inst.Convertible,converted,converted']⟩
    · refine implementType_structs ?_ converted
      exact implementType_structs (implementType_structs collected.structs converted) converted'
    · simp only [Linker.implementSeq,implementType_seqs,List.flatMap_append,List.flatMap_singleton,Inst.seqs]
      exact collected.seqs.insert sameSeq_iff _
    · simp only [Linker.implementSeq,implementType_assocs,List.flatMap_append,List.flatMap_singleton,
        Inst.assocs]
      exact collected.assocs.insert sameAssoc_iff _

theorem Collected.visits {before : List Inst} (collected : Collected before linker) {after : Linker}
    (visited : insts.foldlM ImplLinker.visit linker = some after) :
    Collected (before ++ insts) after ∧ ∀ inst ∈ insts, inst.Convertible := by
  induction insts generalizing before linker with
  | nil =>
    obtain rfl := Option.some.inj visited
    exact ⟨by simpa using collected,by simp⟩
  | cons inst insts ih =>
    simp only [List.foldlM_cons,Option.bind_eq_bind,Option.bind_eq_some_iff] at visited
    obtain ⟨middle,first,rest⟩ := visited
    obtain ⟨collected',converted⟩ := collected.visit first
    obtain ⟨collected'',converted'⟩ := ih collected' rest
    rw [List.append_assoc] at collected''
    exact ⟨collected'',by simpa using ⟨converted,converted'⟩⟩

theorem visits_total (convertible : ∀ inst ∈ insts, inst.Convertible) (linker : Linker) :
    ∃ after, insts.foldlM visit linker = some after := by
  induction insts generalizing linker with
  | nil => exact ⟨linker,rfl⟩
  | cons inst insts ih =>
    have first : ∃ middle, visit linker inst = some middle := by
      have converted := convertible inst (by simp)
      cases inst with
      | other => exact ⟨linker,rfl⟩
      | sequenceAlloc _ | defineStruct _ _ =>
        obtain ⟨layout,isLayout⟩ := Option.isSome_iff_exists.mp converted
        exact ⟨_,by rw [visit,isLayout]; rfl⟩
      | assocAlloc _ _ =>
        obtain ⟨layout,isLayout⟩ := Option.isSome_iff_exists.mp converted.1
        obtain ⟨layout',isLayout'⟩ := Option.isSome_iff_exists.mp converted.2
        exact ⟨_,by rw [visit,isLayout,isLayout']; rfl⟩
    obtain ⟨middle,isMiddle⟩ := first
    obtain ⟨after,isAfter⟩ := ih (fun inst' member => convertible inst' (by simp [member])) middle
    exact ⟨after,by rw [List.foldlM_cons,isMiddle]; exact isAfter⟩

end

end ImplLinker

end Memoir
