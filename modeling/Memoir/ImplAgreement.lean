import Memoir.ImplNames
import Mathlib.Data.List.Forall2

/-! The lines that the linker emits, and the modules where every function that SSA destruction
builds is one of them. -/
namespace Memoir
namespace ImplLinker
open TypeLayout

section
variable {α β : Type} {f : α → Option β}

theorem mapM_related {values : List α} {results : List β} (isMapped : values.mapM f = some results) :
    List.Forall₂ (fun value result => f value = some result) values results := by
  induction values generalizing results with
  | nil =>
    obtain rfl := Option.some.inj isMapped
    exact .nil
  | cons value values ih =>
    simp only [List.mapM_cons,Option.bind_eq_bind,Option.bind_eq_some_iff] at isMapped
    obtain ⟨result,first,results,rest,same⟩ := isMapped
    obtain rfl := Option.some.inj same
    exact .cons first (ih rest)

theorem mapM_total {values : List α} (total : ∀ value ∈ values, (f value).isSome) :
    ∃ results, values.mapM f = some results := by
  induction values with
  | nil => exact ⟨[],rfl⟩
  | cons value values ih =>
    obtain ⟨result,first⟩ := Option.isSome_iff_exists.mp (total value (by simp))
    obtain ⟨results,rest⟩ := ih fun value' member => total value' (by simp [member])
    exact ⟨result :: results,by rw [List.mapM_cons,first,rest]; rfl⟩

theorem related_result {values : List α} {results : List β}
    (related : List.Forall₂ (fun value result => f value = some result) values results)
    {value : α} (member : value ∈ values) : ∃ result ∈ results, f value = some result := by
  induction related with
  | nil => exact absurd member (by simp)
  | cons first _ ih =>
    rcases List.mem_cons.mp member with rfl | member
    · exact ⟨_,by simp,first⟩
    · obtain ⟨result,isResult,isSome⟩ := ih member
      exact ⟨result,by simp [isResult],isSome⟩

theorem related_value {values : List α} {results : List β}
    (related : List.Forall₂ (fun value result => f value = some result) values results)
    {result : β} (member : result ∈ results) : ∃ value ∈ values, f value = some result := by
  induction related with
  | nil => exact absurd member (by simp)
  | cons first _ ih =>
    rcases List.mem_cons.mp member with rfl | member
    · exact ⟨_,by simp,first⟩
    · obtain ⟨value,isValue,isSome⟩ := ih member
      exact ⟨value,by simp [isValue],isSome⟩

theorem related_filter {values : List α} {results : List β}
    (related : List.Forall₂ (fun value result => f value = some result) values results)
    {p : β → Bool} {q : α → Bool} (agree : ∀ value result, f value = some result → p result = q value) :
    (results.filter p).length = (values.filter q).length := by
  induction related with
  | nil => rfl
  | cons first _ ih =>
    simp only [List.filter_cons,agree _ _ first]
    split_ifs <;> simp [ih]

end

def seqName (implementation : String × MemoirType) : String :=
  implementation.2.getCode ++ "_" ++ implementation.1

def assocName (implementation : String × MemoirType × MemoirType) : String :=
  implementation.2.1.getCode ++ "_" ++ implementation.2.2.getCode ++ "_" ++ implementation.1

theorem seqName_same {first second : String × MemoirType} (same : sameSeq first second = true) :
    seqName first = seqName second := by
  simp only [sameSeq,Bool.and_eq_true,decide_eq_true_eq] at same
  rw [seqName,seqName,same.1,MemoirType.getCode_same same.2]

theorem assocName_same {first second : String × MemoirType × MemoirType}
    (same : sameAssoc first second = true) : assocName first = assocName second := by
  simp only [sameAssoc,Bool.and_eq_true,decide_eq_true_eq] at same
  rw [assocName,assocName,same.1.1,MemoirType.getCode_same same.1.2,MemoirType.getCode_same same.2]

theorem seqLine_spec {implementation : String × MemoirType} {line : Line}
    (isLine : seqLine implementation = some line) : ∃ cType,
    memoirToCType implementation.2 = some cType ∧
      line = .instantiateSeq implementation.1 implementation.2.getCode cType := by
  simp only [seqLine,Option.bind_eq_bind,Option.bind_eq_some_iff] at isLine
  obtain ⟨cType,isType,same⟩ := isLine
  exact ⟨cType,isType,(Option.some.inj same).symm⟩

theorem assocLine_spec {implementation : String × MemoirType × MemoirType} {line : Line}
    (isLine : assocLine implementation = some line) : ∃ cKey cValue,
    memoirToCType implementation.2.1 = some cKey ∧ memoirToCType implementation.2.2 = some cValue ∧
      line = .instantiateAssoc implementation.1 implementation.2.1.getCode cKey
        implementation.2.2.getCode cValue := by
  simp only [assocLine,Option.bind_eq_bind,Option.bind_eq_some_iff] at isLine
  obtain ⟨cKey,isKey,cValue,isValue,same⟩ := isLine
  exact ⟨cKey,cValue,isKey,isValue,(Option.some.inj same).symm⟩

theorem structs_unnamed {types : List MemoirType} {lines : List Line}
    (isLines : (types.mapM fun type => (memoirToCType type).map Line.typedefStruct) = some lines) :
    ∀ line ∈ lines, line.instantiation = none := by
  intro line member
  obtain ⟨type,_,isLine⟩ := related_value (mapM_related isLines) member
  obtain ⟨cType,_,rfl⟩ := Option.map_eq_some_iff.mp isLine
  rfl

theorem header_filter {α : Type} (implementations : List (String × α)) (lines : List Line)
    (name : String) : (withHeader implementations lines).filter (·.instantiation = some name) =
      lines.filter (·.instantiation = some name) := by
  cases implementations with
  | nil => rfl
  | cons first _ =>
    simp [withHeader,Line.instantiation]

/-- The names of sequences end in another letter than those of associative arrays. -/
theorem prefix_apart (code code' : String) : code ++ "_" ++ seqImpl ≠ code' ++ "_" ++ assocImpl := by
  intro same
  have last := congrArg (fun name => name.toList.getLast?) same
  simp [String.toList_append,seqImpl,assocImpl] at last

/-- The parts of what is emitted. -/
structure Emitted (linker : Linker) (lines structs seqs assocs : List Line) : Prop where
  unnamed : ∀ line ∈ structs, line.instantiation = none
  seqLines : List.Forall₂ (fun value line => seqLine value = some line) linker.seqImplementations seqs
  assocLines : List.Forall₂ (fun value line => assocLine value = some line)
    linker.assocImplementations assocs
  whole : lines = structs ++ withHeader linker.seqImplementations seqs ++
    withHeader linker.assocImplementations assocs

theorem emit_spec {linker : Linker} {lines : List Line} (emitted : linker.emit = some lines) :
    ∃ structs seqs assocs, Emitted linker lines structs seqs assocs := by
  simp only [Linker.emit,Option.bind_eq_bind,Option.bind_eq_some_iff] at emitted
  obtain ⟨structs,isStructs,seqs,isSeqs,assocs,isAssocs,same⟩ := emitted
  exact ⟨structs,seqs,assocs,structs_unnamed isStructs,mapM_related isSeqs,mapM_related isAssocs,
    (Option.some.inj same).symm⟩

section
variable {insts : List Inst} {linker : Linker} {lines structs seqs assocs : List Line}

theorem Collected.seq_impl (collected : Collected insts linker) {implementation : String × MemoirType}
    (member : implementation ∈ linker.seqImplementations) : implementation.1 = seqImpl := by
  obtain ⟨inst,_,isSeq⟩ := List.mem_flatMap.mp (collected.seqs.member implementation member)
  cases inst with
  | sequenceAlloc element => rw [List.mem_singleton.mp isSeq]
  | assocAlloc key value => rw [List.mem_singleton.mp isSeq]
  | defineStruct _ _ | other => exact absurd isSeq (by simp [Inst.seqs])

theorem Collected.assoc_impl (collected : Collected insts linker)
    {implementation : String × MemoirType × MemoirType}
    (member : implementation ∈ linker.assocImplementations) : implementation.1 = assocImpl := by
  obtain ⟨inst,_,isAssoc⟩ := List.mem_flatMap.mp (collected.assocs.member implementation member)
  cases inst with
  | assocAlloc key value => rw [List.mem_singleton.mp isAssoc]
  | sequenceAlloc _ | defineStruct _ _ | other => exact absurd isAssoc (by simp [Inst.assocs])

theorem Emitted.seq_line (emitted : Emitted linker lines structs seqs assocs) {line : Line}
    (member : line ∈ seqs) : line ∈ lines := by
  rw [emitted.whole,withHeader]
  simp [member]

theorem Emitted.assoc_line (emitted : Emitted linker lines structs seqs assocs) {line : Line}
    (member : line ∈ assocs) : line ∈ lines := by
  rw [emitted.whole,withHeader,withHeader]
  simp [member]

theorem Emitted.filter (emitted : Emitted linker lines structs seqs assocs) (name : String) :
    lines.filter (·.instantiation = some name) = seqs.filter (·.instantiation = some name) ++
      assocs.filter (·.instantiation = some name) := by
  have none_kept : structs.filter (·.instantiation = some name) = [] := by
    rw [List.filter_eq_nil_iff]
    intro line member
    simp [emitted.unnamed line member]
  rw [emitted.whole,List.filter_append,List.filter_append,none_kept,header_filter,header_filter,
    List.nil_append]

/-- A sequence has as many instantiations as there are element types with its name. -/
theorem Emitted.seq_count (emitted : Emitted linker lines structs seqs assocs)
    (collected : Collected insts linker) (element : MemoirType) :
    (lines.filter (·.instantiation = some (Collection.sequence element).implPrefix)).length =
      (linker.seqImplementations.filter fun other => seqName other = seqName (seqImpl,element)).length := by
  have others : assocs.filter
      (·.instantiation = some (Collection.sequence element).implPrefix) = [] := by
    rw [List.filter_eq_nil_iff]
    intro line member
    obtain ⟨implementation,isKept,isLine⟩ := related_value emitted.assocLines member
    obtain ⟨cKey,cValue,_,_,rfl⟩ := assocLine_spec isLine
    simp only [Line.instantiation,Collection.implPrefix,collected.assoc_impl isKept,Option.some.injEq,
      decide_eq_true_eq]
    exact (prefix_apart _ _).symm
  rw [emitted.filter,others,List.append_nil]
  apply related_filter emitted.seqLines
  intro implementation line isLine
  obtain ⟨cType,_,rfl⟩ := seqLine_spec isLine
  rw [decide_eq_decide]
  simp [Line.instantiation,Collection.implPrefix,seqName]

theorem Emitted.assoc_count (emitted : Emitted linker lines structs seqs assocs)
    (collected : Collected insts linker) (key value : MemoirType) :
    (lines.filter (·.instantiation = some (Collection.assocArray key value).implPrefix)).length =
      (linker.assocImplementations.filter fun other =>
        assocName other = assocName (assocImpl,key,value)).length := by
  have others : seqs.filter
      (·.instantiation = some (Collection.assocArray key value).implPrefix) = [] := by
    rw [List.filter_eq_nil_iff]
    intro line member
    obtain ⟨implementation,isKept,isLine⟩ := related_value emitted.seqLines member
    obtain ⟨cType,_,rfl⟩ := seqLine_spec isLine
    simp only [Line.instantiation,Collection.implPrefix,collected.seq_impl isKept,Option.some.injEq,
      decide_eq_true_eq]
    exact prefix_apart _ _
  rw [emitted.filter,others,List.nil_append]
  apply related_filter emitted.assocLines
  intro implementation line isLine
  obtain ⟨cKey,cValue,_,_,rfl⟩ := assocLine_spec isLine
  rw [decide_eq_decide]
  simp [Line.instantiation,Collection.implPrefix,assocName]

theorem sequence_mem {element : MemoirType} (member : .sequence element ∈ insts.flatMap Inst.collections) :
    (seqImpl,element) ∈ insts.flatMap Inst.seqs := by
  obtain ⟨inst,isInst,member⟩ := List.mem_flatMap.mp member
  refine List.mem_flatMap.mpr ⟨inst,isInst,?_⟩
  cases inst with
  | sequenceAlloc _ => simpa [Inst.collections,Inst.seqs] using member
  | assocAlloc _ _ => simpa [Inst.collections,Inst.seqs] using member
  | defineStruct _ _ | other => exact absurd member (by simp [Inst.collections])

theorem assoc_mem {key value : MemoirType}
    (member : .assocArray key value ∈ insts.flatMap Inst.collections) :
    (assocImpl,key,value) ∈ insts.flatMap Inst.assocs := by
  obtain ⟨inst,isInst,member⟩ := List.mem_flatMap.mp member
  refine List.mem_flatMap.mpr ⟨inst,isInst,?_⟩
  cases inst with
  | assocAlloc _ _ => simpa [Inst.collections,Inst.assocs] using member
  | sequenceAlloc _ => exact absurd member (by simp [Inst.collections])
  | defineStruct _ _ | other => exact absurd member (by simp [Inst.collections])

theorem mem_sequence {implementation : String × MemoirType}
    (member : implementation ∈ insts.flatMap Inst.seqs) :
    implementation.1 = seqImpl ∧ .sequence implementation.2 ∈ insts.flatMap Inst.collections := by
  obtain ⟨inst,isInst,member⟩ := List.mem_flatMap.mp member
  cases inst with
  | sequenceAlloc _ =>
    obtain rfl := List.mem_singleton.mp member
    exact ⟨rfl,List.mem_flatMap.mpr ⟨_,isInst,by simp [Inst.collections]⟩⟩
  | assocAlloc _ _ =>
    obtain rfl := List.mem_singleton.mp member
    exact ⟨rfl,List.mem_flatMap.mpr ⟨_,isInst,by simp [Inst.collections]⟩⟩
  | defineStruct _ _ | other => exact absurd member (by simp [Inst.seqs])

theorem mem_assoc {implementation : String × MemoirType × MemoirType}
    (member : implementation ∈ insts.flatMap Inst.assocs) : implementation.1 = assocImpl ∧
      .assocArray implementation.2.1 implementation.2.2 ∈ insts.flatMap Inst.collections := by
  obtain ⟨inst,isInst,member⟩ := List.mem_flatMap.mp member
  cases inst with
  | assocAlloc _ _ =>
    obtain rfl := List.mem_singleton.mp member
    exact ⟨rfl,List.mem_flatMap.mpr ⟨_,isInst,by simp [Inst.collections]⟩⟩
  | sequenceAlloc _ | defineStruct _ _ | other => exact absurd member (by simp [Inst.assocs])

theorem same_comm (type type' : MemoirType) : type.same type' = type'.same type := by
  rw [Bool.eq_iff_iff,MemoirType.same_iff,MemoirType.same_iff,eq_comm]

/-- An instantiation is emitted once if its name tells everything. -/
theorem Emitted.once_iff (emitted : Emitted linker lines structs seqs assocs)
    (collected : Collected insts linker) {collection : Collection}
    (member : collection ∈ insts.flatMap Inst.collections) :
    (lines.filter (·.instantiation = some collection.implPrefix)).length = 1 ↔
      ∀ other ∈ insts.flatMap Inst.collections, other.implPrefix = collection.implPrefix →
        other.same collection = true := by
  cases collection with
  | sequence element =>
    rw [emitted.seq_count collected,collected.seqs.once_iff sameSeq_iff (fun _ _ => seqName_same)
      (sequence_mem member)]
    constructor
    · intro all other isOther isName
      cases other with
      | sequence element' =>
        have isSame := all _ (sequence_mem isOther) isName
        simpa [Collection.same,sameSeq,same_comm element'] using isSame
      | assocArray _ _ => exact absurd isName.symm (prefix_apart _ _)
    · intro all implementation isOther isName
      obtain ⟨isImpl,isOther⟩ := mem_sequence isOther
      obtain ⟨_,element'⟩ := implementation
      obtain rfl := isImpl
      have isSame := all _ isOther isName
      simpa [Collection.same,sameSeq,same_comm element'] using isSame
  | assocArray key value =>
    rw [emitted.assoc_count collected,collected.assocs.once_iff sameAssoc_iff
      (fun _ _ => assocName_same) (assoc_mem member)]
    constructor
    · intro all other isOther isName
      cases other with
      | assocArray key' value' =>
        have isSame := all _ (assoc_mem isOther) isName
        simpa [Collection.same,sameAssoc,same_comm key',same_comm value'] using isSame
      | sequence _ => exact absurd isName (prefix_apart _ _)
    · intro all implementation isOther isName
      obtain ⟨isImpl,isOther⟩ := mem_assoc isOther
      obtain ⟨_,key',value'⟩ := implementation
      obtain rfl := isImpl
      have isSame := all _ isOther isName
      simpa [Collection.same,sameAssoc,same_comm key',same_comm value'] using isSame

end

section
variable {insts : List Inst} {linker : Linker} {lines structs seqs assocs : List Line}

/-- The C types that the linker writes. -/
def Collection.linkedTypes : Collection → Option (List String)
  | sequence element => do return [← memoirToCType element]
  | assocArray key value => do return [← memoirToCType key,← memoirToCType value]

theorem cTypes_same {collection other : Collection} (same : collection.same other = true) :
    collection.cTypes = other.cTypes := by
  cases collection with
  | sequence element =>
    cases other with
    | sequence element' =>
      have isType := (ownCType_same same : ownCType element = ownCType element')
      simp only [Collection.cTypes,isType]
    | assocArray _ _ => exact absurd same (by simp [Collection.same])
  | assocArray key value =>
    cases other with
    | sequence _ => exact absurd same (by simp [Collection.same])
    | assocArray key' value' =>
      simp only [Collection.same,Bool.and_eq_true] at same
      simp only [Collection.cTypes,ownCType_same same.1,ownCType_same same.2]

/-- Collections of elementary types have one name when the types are alike. -/
theorem implPrefix_iff {collection other : Collection}
    (elementary : ∀ type ∈ collection.types, Elementary type)
    (elementary' : ∀ type ∈ other.types, Elementary type) :
    collection.implPrefix = other.implPrefix ↔ collection.Alike other = true := by
  cases collection with
  | sequence element =>
    cases other with
    | sequence element' =>
      have isElementary := elementary element (by simp [Collection.types])
      have isElementary' := elementary' element' (by simp [Collection.types])
      rw [Collection.Alike,alike_iff element element' isElementary isElementary',
        ← getCode_injective]
      simp [Collection.implPrefix]
    | assocArray _ _ => exact iff_of_false (prefix_apart _ _) (by simp [Collection.Alike])
  | assocArray key value =>
    cases other with
    | sequence _ => exact iff_of_false (prefix_apart _ _).symm (by simp [Collection.Alike])
    | assocArray key' value' =>
      have isKey := elementary key (by simp [Collection.types])
      have isValue := elementary value (by simp [Collection.types])
      have isKey' := elementary' key' (by simp [Collection.types])
      have isValue' := elementary' value' (by simp [Collection.types])
      rw [Collection.Alike,Bool.and_eq_true,alike_iff key key' isKey isKey',
        alike_iff value value' isValue isValue',← getCode_injective,← getCode_injective,
        ← pair_injective]
      simp [Collection.implPrefix]

theorem cTypes_iff (collection : Collection) :
    collection.cTypes.isSome ↔ ∀ type ∈ collection.types, Elementary type := by
  cases collection with
  | sequence element =>
    simp only [Collection.types,List.mem_singleton,forall_eq,← ownCType_isSome,Collection.cTypes]
    cases ownCType element <;> simp
  | assocArray key value =>
    simp only [Collection.types,List.mem_cons,List.not_mem_nil,or_false,forall_eq_or_imp,forall_eq,
      ← ownCType_isSome,Collection.cTypes]
    cases ownCType key <;> cases ownCType value <;> simp

theorem linkedTypes_iff {collection : Collection} (elementary : ∀ type ∈ collection.types, Elementary type) :
    collection.cTypes = collection.linkedTypes ↔ ∀ type ∈ collection.types, Declared type := by
  have linked (type : MemoirType) (member : type ∈ collection.types) :
      ∃ cType, memoirToCType type = some cType :=
    Option.isSome_iff_exists.mp ((cType_isSome type).trans (elementary type member))
  have own (type : MemoirType) (member : type ∈ collection.types) : ∃ cType, ownCType type = some cType :=
    Option.isSome_iff_exists.mp ((ownCType_isSome type).trans (elementary type member))
  cases collection with
  | sequence element =>
    simp only [Collection.types,List.mem_singleton,forall_eq] at elementary linked own ⊢
    obtain ⟨cType,isType⟩ := linked
    obtain ⟨cType',isOwn⟩ := own
    rw [← cType_own_iff element elementary]
    simp [Collection.cTypes,Collection.linkedTypes,isType,isOwn,eq_comm]
  | assocArray key value =>
    simp only [Collection.types,List.mem_cons,List.not_mem_nil,or_false,forall_eq_or_imp,forall_eq]
      at elementary linked own ⊢
    obtain ⟨⟨cKey,isKey⟩,cValue,isValue⟩ := linked
    obtain ⟨⟨cKey',ownKey⟩,cValue',ownValue⟩ := own
    rw [← cType_own_iff key elementary.1,← cType_own_iff value elementary.2]
    simp [Collection.cTypes,Collection.linkedTypes,isKey,isValue,ownKey,ownValue,eq_comm]

theorem supported_iff (inst : Inst) : inst.Supported ↔ inst.Convertible ∧
    ∀ collection ∈ inst.collections, ∀ type ∈ collection.types, Elementary type := by
  cases inst with
  | sequenceAlloc _ =>
    simp [Inst.Supported,Inst.Convertible,Inst.collections,Collection.types]
  | assocAlloc _ _ =>
    simp only [Inst.Supported,Inst.Convertible,Inst.collections,Collection.types,List.mem_cons,
      List.not_mem_nil,or_false,forall_eq_or_imp,forall_eq]
    tauto
  | defineStruct _ _ | other =>
    simp [Inst.Supported,Inst.Convertible,Inst.collections]

/-- Everything that was collected has lines. -/
theorem emit_total (collected : Collected insts linker)
    (elementary : ∀ collection ∈ insts.flatMap Inst.collections, ∀ type ∈ collection.types,
      Elementary type) : ∃ lines, linker.emit = some lines := by
  have isType {collection : Collection} (member : collection ∈ insts.flatMap Inst.collections)
      {type : MemoirType} (isType : type ∈ collection.types) : ∃ cType, memoirToCType type = some cType := by
    rw [← Option.isSome_iff_exists,cType_isSome]
    exact elementary collection member type isType
  obtain ⟨structs,isStructs⟩ : ∃ structs, (linker.structImplementations.mapM fun type =>
      (memoirToCType type).map Line.typedefStruct) = some structs := by
    apply mapM_total
    intro type member
    obtain ⟨name,fields,rfl⟩ := collected.structs type member
    rfl
  obtain ⟨seqs,isSeqs⟩ : ∃ seqs, linker.seqImplementations.mapM seqLine = some seqs := by
    apply mapM_total
    intro implementation member
    have isCollection := (mem_sequence (collected.seqs.member implementation member)).2
    obtain ⟨cType,isSome⟩ := isType isCollection (List.mem_singleton.mpr rfl)
    rw [seqLine,isSome]
    rfl
  obtain ⟨assocs,isAssocs⟩ : ∃ assocs, linker.assocImplementations.mapM assocLine = some assocs := by
    apply mapM_total
    intro implementation member
    have isCollection := (mem_assoc (collected.assocs.member implementation member)).2
    obtain ⟨cKey,isKey⟩ := isType isCollection (by simp [Collection.types] : implementation.2.1 ∈ _)
    obtain ⟨cValue,isValue⟩ := isType isCollection (by simp [Collection.types] : implementation.2.2 ∈ _)
    rw [assocLine,isKey,isValue]
    rfl
  exact ⟨_,by rw [Linker.emit,isStructs,isSeqs,isAssocs]; rfl⟩

def Collection.implName : Collection → String
  | sequence _ => seqImpl
  | assocArray _ _ => assocImpl

theorem operations_provided (collection : Collection) : ∀ operation ∈ collection.operations,
    operation ∈ backendOperations collection.implName := by
  cases collection with
  | sequence _ =>
    simp only [Collection.operations,Collection.implName]
    decide
  | assocArray _ _ =>
    simp only [Collection.operations,Collection.implName]
    decide

/-- The line of a collection defines the functions that are built for it. -/
theorem Emitted.line (emitted : Emitted linker lines structs seqs assocs)
    (collected : Collected insts linker) {collection : Collection}
    (member : collection ∈ insts.flatMap Inst.collections) :
    ∃ line ∈ lines, (∀ name ∈ collection.functionNames, name ∈ line.functions) ∧
      line.instantiation = some collection.implPrefix ∧ collection.linkedTypes = some line.cTypes := by
  cases collection with
  | sequence element =>
    obtain ⟨implementation,isKept,isSame⟩ := collected.seqs.found _ (sequence_mem member)
    obtain ⟨line,isLine,isSome⟩ := related_result emitted.seqLines isKept
    obtain ⟨cType,isType,rfl⟩ := seqLine_spec isSome
    simp only [sameSeq,Bool.and_eq_true,decide_eq_true_eq] at isSame
    have isCode := MemoirType.getCode_same isSame.2
    have provided := operations_provided (.sequence element)
    refine ⟨_,emitted.seq_line isLine,?_,?_,?_⟩
    · intro name isName
      obtain ⟨operation,isOperation,rfl⟩ := List.mem_map.mp isName
      rw [Line.functions,← isSame.1,← isCode]
      exact List.mem_map.mpr ⟨operation,provided operation isOperation,rfl⟩
    · rw [Line.instantiation,← isSame.1,← isCode]
      rfl
    · simp [Collection.linkedTypes,cType_same isSame.2,isType,Line.cTypes]
  | assocArray key value =>
    obtain ⟨implementation,isKept,isSame⟩ := collected.assocs.found _ (assoc_mem member)
    obtain ⟨line,isLine,isSome⟩ := related_result emitted.assocLines isKept
    obtain ⟨cKey,cValue,isKey,isValue,rfl⟩ := assocLine_spec isSome
    simp only [sameAssoc,Bool.and_eq_true,decide_eq_true_eq] at isSame
    have keyCode := MemoirType.getCode_same isSame.1.2
    have valueCode := MemoirType.getCode_same isSame.2
    have provided := operations_provided (.assocArray key value)
    refine ⟨_,emitted.assoc_line isLine,?_,?_,?_⟩
    · intro name isName
      obtain ⟨operation,isOperation,rfl⟩ := List.mem_map.mp isName
      rw [Line.functions,← isSame.1.1,← keyCode,← valueCode]
      exact List.mem_map.mpr ⟨operation,provided operation isOperation,rfl⟩
    · rw [Line.instantiation,← isSame.1.1,← keyCode,← valueCode]
      rfl
    · simp [Collection.linkedTypes,cType_same isSame.1.2,cType_same isSame.2,isKey,isValue,Line.cTypes]

end

theorem collected_empty : Collected [] .empty := ⟨by simp [Linker.empty],.nil,.nil⟩

/-- An instantiation that is emitted once has the types that the runtime declares. -/
theorem Emitted.declared {insts : List Inst} {linker : Linker} {lines structs seqs assocs : List Line}
    (emitted : Emitted linker lines structs seqs assocs) (collected : Collected insts linker)
    {collection : Collection} (member : collection ∈ insts.flatMap Inst.collections)
    (elementary : ∀ type ∈ collection.types, Elementary type)
    (once : (lines.filter (·.instantiation = some collection.implPrefix)).length = 1) {line : Line}
    (isLine : line ∈ lines) (isInstantiation : line.instantiation = some collection.implPrefix)
    (isTypes : collection.cTypes = some line.cTypes) : ∀ type ∈ collection.types, Declared type := by
  obtain ⟨line',isLine',_,isInstantiation',isTypes'⟩ := emitted.line collected member
  obtain ⟨only,isOnly⟩ := List.length_eq_one_iff.mp once
  have isFirst : line ∈ [only] := isOnly ▸ List.mem_filter.mpr ⟨isLine,decide_eq_true isInstantiation⟩
  have isSecond : line' ∈ [only] := isOnly ▸ List.mem_filter.mpr ⟨isLine',decide_eq_true isInstantiation'⟩
  rw [← linkedTypes_iff elementary,isTypes,isTypes',List.mem_singleton.mp isFirst,List.mem_singleton.mp isSecond]

/-- Where names are agreed on, types are elementary, declared and told apart by their codes. -/
theorem Linked.conditions {program : Module} (linked : Linked program) :
    (∀ inst ∈ program.flatten, inst.Supported) ∧
    (∀ collection ∈ collections program, ∀ type ∈ collection.types, Declared type) ∧
    ∀ collection ∈ collections program, ∀ other ∈ collections program,
      collection.Alike other → collection.same other := by
  obtain ⟨lines,ran,linked⟩ := linked
  simp only [runOnModule,Option.bind_eq_bind,Option.bind_eq_some_iff] at ran
  obtain ⟨linker,visited,emit⟩ := ran
  obtain ⟨collected,convertible⟩ := collected_empty.visits visited
  obtain ⟨structs,seqs,assocs,emitted⟩ := emit_spec emit
  have isAllocate (collection : Collection) :
      collection.implPrefix ++ "__" ++ "allocate" ∈ collection.functionNames := by
    cases collection <;> simp [Collection.functionNames,Collection.operations]
  have elementary (collection : Collection) (member : collection ∈ collections program) :
      ∀ type ∈ collection.types, Elementary type := by
    rw [← cTypes_iff]
    obtain ⟨line,_,_,_,isTypes⟩ := (linked collection member).1 _ (isAllocate collection)
    rw [isTypes]
    rfl
  refine ⟨fun inst member => ?_,fun collection member => ?_,fun collection member other member' alike => ?_⟩
  · rw [supported_iff]
    refine ⟨convertible inst member,fun collection isCollection => elementary collection ?_⟩
    exact List.mem_flatMap.mpr ⟨inst,member,isCollection⟩
  · obtain ⟨line,isLine,_,isInstantiation,isTypes⟩ := (linked collection member).1 _ (isAllocate collection)
    exact emitted.declared collected member (elementary collection member) (linked collection member).2.1 isLine
      isInstantiation isTypes
  · rw [← implPrefix_iff (elementary collection member) (elementary other member')] at alike
    exact (emitted.once_iff collected member').mp (linked other member').2.1 collection member alike

theorem linked_of_conditions {program : Module} (supported : ∀ inst ∈ program.flatten, inst.Supported)
    (declared : ∀ collection ∈ collections program, ∀ type ∈ collection.types, Declared type)
    (apart : ∀ collection ∈ collections program, ∀ other ∈ collections program,
      collection.Alike other → collection.same other) : Linked program := by
  have convertible (inst : Inst) (member : inst ∈ program.flatten) : inst.Convertible :=
    ((supported_iff inst).mp (supported inst member)).1
  have elementary (collection : Collection) (member : collection ∈ collections program) :
      ∀ type ∈ collection.types, Elementary type := by
    obtain ⟨inst,isInst,isCollection⟩ := List.mem_flatMap.mp member
    exact ((supported_iff inst).mp (supported inst isInst)).2 collection isCollection
  obtain ⟨linker,visited⟩ := visits_total convertible .empty
  obtain ⟨collected,_⟩ := collected_empty.visits visited
  obtain ⟨lines,emit⟩ := emit_total collected elementary
  obtain ⟨structs,seqs,assocs,emitted⟩ := emit_spec emit
  have isSame (collection : Collection) (member : collection ∈ collections program)
      (other : Collection) (member' : other ∈ collections program)
      (isName : other.implPrefix = collection.implPrefix) : other.same collection = true := by
    apply apart other member' collection member
    exact (implPrefix_iff (elementary other member') (elementary collection member)).mp isName
  refine ⟨lines,by rw [runOnModule,visited]; exact emit,fun collection member => ⟨?_,?_,?_⟩⟩
  · intro name isName
    obtain ⟨line,isLine,functions,isInstantiation,isTypes⟩ := emitted.line collected member
    rw [← (linkedTypes_iff (elementary collection member)).mpr (declared collection member)] at isTypes
    exact ⟨line,isLine,functions name isName,isInstantiation,isTypes⟩
  · exact (emitted.once_iff collected member).mpr (isSame collection member)
  · intro other member' isName
    exact cTypes_same (isSame collection member other member' isName)

theorem linked_iff (program : Module) : Linked program ↔
    (∀ inst ∈ program.flatten, inst.Supported) ∧
    (∀ collection ∈ collections program, ∀ type ∈ collection.types, Declared type) ∧
    ∀ collection ∈ collections program, ∀ other ∈ collections program,
      collection.Alike other → collection.same other :=
  ⟨Linked.conditions,fun ⟨supported,declared,apart⟩ => linked_of_conditions supported declared apart⟩

/-- A sequence of each of two structs. -/
def twoStructs : Module :=
  [[.defineStruct "A" [.integer .u64],.defineStruct "B" [.float],
    .sequenceAlloc (.struct "A" [.integer .u64]),.sequenceAlloc (.struct "B" [.float])]]

/-- Both are instantiated under one name. -/
theorem twoStructs_not_linked : ¬ Linked twoStructs := by
  intro linked
  have isSame := linked.conditions.2.2 (.sequence (.struct "A" [.integer .u64]))
    (by simp [collections,twoStructs,Inst.collections]) (.sequence (.struct "B" [.float]))
    (by simp [collections,twoStructs,Inst.collections]) rfl
  exact absurd isSame (by decide)

end ImplLinker
end Memoir
