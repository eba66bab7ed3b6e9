import PickleChat.Lib.Text

/-!
# The udev rule for a mouse

`mouse_grab.rs` writes a rule file for the mice that cannot be read, which the
user installs as root. The names of the devices stand in it as comments, and the
hardware chooses them.
-/

namespace PickleChat

namespace MouseGrab

open Text

def udevRulePath : String := "/etc/udev/rules.d/70-pickle-mouse.rules"

structure MouseDevice where
  name : String
  vendor : String
  product : String
  deriving DecidableEq

structure UdevAdvice where
  path : String
  rule : String
  devices : List MouseDevice

def cleanName (name : String) : String :=
  let cleaned := String.ofList (name.toList.map fun c => if isControl c then ' ' else c)
  let cleaned := " ".intercalate (splitWhitespace cleaned)
  if cleaned.toList = [] then "unnamed mouse" else String.ofList (cleaned.toList.take 80)

def udevHeader : List String :=
  ["# Pickle: read one mouse's buttons, and nothing else.",
    "#",
    "# Install with:",
    "#   sudo cp <this file> " ++ udevRulePath,
    "#   sudo udevadm control --reload",
    "#   sudo udevadm trigger --subsystem-match=input",
    "# then unplug and replug the mouse, or reboot.",
    "#",
    "# Each rule grants access to one device, for whoever is logged in at",
    "# this machine's own screen and keyboard, for as long as that session",
    "# lasts. It is not the `input` group: nothing here gives any process",
    "# access to a keyboard, to another user's devices, or to a device that",
    "# is not named below.",
    "#",
    "# Derive the ids for a mouse yourself with:",
    "#   udevadm info -a -n /dev/input/eventN | grep -m2 -E 'idVendor|idProduct'",
    "# For a Bluetooth or I2C mouse, which has no USB parent, use",
    "# ATTRS\x7bid/vendor\x7d and ATTRS\x7bid/product\x7d in place of",
    "# ATTRS\x7bidVendor\x7d and ATTRS\x7bidProduct\x7d."]

def ruleText (vendor product : String) : String :=
  "SUBSYSTEM==\"input\", KERNEL==\"event*\", " ++
    "ENV\x7bID_INPUT_MOUSE\x7d==\"1\", ENV\x7bID_INPUT_KEYBOARD\x7d!=\"1\", " ++
    "ATTRS\x7bidVendor\x7d==\"" ++ vendor ++ "\", ATTRS\x7bidProduct\x7d==\"" ++ product ++ "\", TAG+=\"uaccess\""

def udevRule (devices : List MouseDevice) : String :=
  devices.foldl
    (fun rule device =>
      rule ++ ("\n# " ++ cleanName device.name ++ "\n" ++ ruleText device.vendor device.product ++ "\n"))
    (String.join (udevHeader.map fun line => line ++ "\n"))

/-! ## Which devices it is written for -/

/-- An entry of `/dev/input/by-id`: its name where it is text, whether the node opens, and the files that
sysfs has of the node where the link leads to one. -/
structure InputEntry where
  fileName : Option String
  opens : Bool
  sysfs : Option (String → Option String)

def isAsciiHexdigit (c : Char) : Bool := c.isDigit || ('a' ≤ c && c ≤ 'f') || ('A' ≤ c && c ≤ 'F')

/-- Four hexadecimal digits. Where all are ASCII there are as many bytes as characters. -/
def isHexId (value : String) : Bool := value.toList.length = 4 && value.toList.all isAsciiHexdigit

/-- What `identify_from_sysfs` makes of a file with an id in it. -/
def hexId (value : Option String) : Option String :=
  (value.map fun value => String.ofList ((trim value).toList.map toLowercase)).filter isHexId

def identifyFromSysfs (read : String → Option String) : Option MouseDevice := do
  let vendor ← hexId (read "id/vendor")
  let product ← hexId (read "id/product")
  some { name := cleanName (trim ((read "name").getD "unnamed mouse")), vendor, product }

/-- `dedupe`, with the ids that were seen before. -/
def dedupe (seen : List (String × String)) : List MouseDevice → List MouseDevice
  | [] => []
  | device :: devices =>
    if (device.vendor, device.product) ∈ seen then dedupe seen devices
    else device :: dedupe (seen ++ [(device.vendor, device.product)]) devices

/-- `none` where the directory cannot be read. -/
def unreadableMice (entries : Option (List InputEntry)) : List MouseDevice :=
  match entries with
  | none => []
  | some entries =>
    dedupe [] (((entries.filter fun entry => entry.fileName.any fun name =>
      "-event-mouse".toList.isSuffixOf name.toList).filter fun entry => !entry.opens).filterMap fun entry =>
        entry.sysfs.bind identifyFromSysfs)

def udevAdvice (entries : Option (List InputEntry)) : Option UdevAdvice :=
  let devices := unreadableMice entries
  if devices.isEmpty then none else some { path := udevRulePath, rule := udevRule devices, devices }

/-- The ids of every device are such as udev writes them. -/
def HexIds (devices : List MouseDevice) : Prop :=
  ∀ device ∈ devices, isHexId device.vendor = true ∧ isHexId device.product = true

theorem hexIds_of_identifyFromSysfs {read : String → Option String} {device : MouseDevice}
    (h : identifyFromSysfs read = some device) : isHexId device.vendor = true ∧ isHexId device.product = true := by
  unfold identifyFromSysfs at h
  obtain ⟨vendor, hvendor, h⟩ := Option.bind_eq_some_iff.mp h
  obtain ⟨product, hproduct, h⟩ := Option.bind_eq_some_iff.mp h
  obtain rfl := Option.some.inj h
  exact ⟨(Option.filter_eq_some_iff.mp hvendor).2, (Option.filter_eq_some_iff.mp hproduct).2⟩

theorem dedupe_sublist (seen : List (String × String)) (devices : List MouseDevice) :
    List.Sublist (dedupe seen devices) devices := by
  induction devices generalizing seen with
  | nil => exact .slnil
  | cons device devices ih =>
    rw [dedupe]
    by_cases h : (device.vendor, device.product) ∈ seen
    · rw [if_pos h]
      exact (ih seen).cons _
    · rw [if_neg h]
      exact (ih _).cons_cons _

theorem dedupe_nodup (seen : List (String × String)) (devices : List MouseDevice) :
    ((dedupe seen devices).map fun d => (d.vendor, d.product)).Nodup ∧
      ∀ d ∈ dedupe seen devices, (d.vendor, d.product) ∉ seen := by
  induction devices generalizing seen with
  | nil => simp [dedupe]
  | cons device devices ih =>
    rw [dedupe]
    by_cases h : (device.vendor, device.product) ∈ seen
    · rw [if_pos h]
      exact ih seen
    · rw [if_neg h]
      obtain ⟨hnodup, hnew⟩ := ih (seen ++ [(device.vendor, device.product)])
      simp only [List.mem_append, List.mem_singleton, not_or] at hnew
      constructor
      · rw [List.map_cons, List.nodup_cons]
        refine ⟨fun hmem => ?_, hnodup⟩
        obtain ⟨d, hd, heq⟩ := List.mem_map.mp hmem
        exact (hnew d hd).2 heq
      · intro d hd
        rcases List.mem_cons.mp hd with rfl | hd
        · exact h
        · exact (hnew d hd).1

/-- What is advised is written for devices with proper ids, each pair of ids once. -/
theorem udevAdvice_devices {entries : Option (List InputEntry)} {advice : UdevAdvice}
    (h : udevAdvice entries = some advice) :
    advice.rule = udevRule advice.devices ∧ HexIds advice.devices ∧
      (advice.devices.map fun d => (d.vendor, d.product)).Nodup := by
  unfold udevAdvice at h
  simp only at h
  split at h
  · cases h
  obtain rfl := Option.some.inj h
  cases entries with
  | none => simp [unreadableMice, HexIds]
  | some entries =>
    refine ⟨rfl, fun device hdevice => ?_, (dedupe_nodup [] _).1⟩
    have hfound := (dedupe_sublist [] _).subset hdevice
    obtain ⟨entry, -, hentry⟩ := List.mem_filterMap.mp hfound
    obtain ⟨read, -, hread⟩ := Option.bind_eq_some_iff.mp hentry
    exact hexIds_of_identifyFromSysfs hread

/-! ## The lines of the file -/

theorem endsLine_eq_false {c : Char} (hcontrol : isControl c = false) (hspace : isWhitespace c = false) :
    endsLine c = false := by
  have h2028 : (c.toNat == 0x2028) = false := by
    by_contra h
    simp [isWhitespace, h] at hspace
  have h2029 : (c.toNat == 0x2029) = false := by
    by_contra h
    simp [isWhitespace, h] at hspace
  simp only [endsLine, hcontrol, h2028, h2029, Bool.or_false]

/-- Whatever the hardware calls itself, a name that was cleaned ends no line. -/
theorem oneLine_cleanName (name : String) : OneLine (cleanName name) := by
  have hblank : endsLine ' ' = false := by decide
  have hunnamed : OneLine "unnamed mouse" := oneLine_ofList (by decide)
  intro c hc
  unfold cleanName at hc
  simp only at hc
  split at hc
  · exact hunnamed c hc
  · rw [String.toList_ofList] at hc
    rcases mem_intercalate (List.mem_of_mem_take hc) with hc | ⟨word, hword, hc⟩
    · obtain rfl : c = ' ' := by simpa using hc
      exact hblank
    · obtain ⟨hmem, hspace⟩ := mem_splitWhitespace hword c hc
      rw [String.toList_ofList] at hmem
      obtain ⟨d, -, rfl⟩ := List.mem_map.mp hmem
      by_cases hd : isControl d
      · rw [if_pos hd]
        exact hblank
      · rw [if_neg hd] at hspace ⊢
        exact endsLine_eq_false (by simpa using hd) hspace

theorem endsLine_of_hexdigit {c : Char} (h : isAsciiHexdigit c = true) : endsLine c = false := by
  have hrange : 0x30 ≤ c.toNat ∧ c.toNat ≤ 0x66 := by
    simp only [isAsciiHexdigit, Char.isDigit, Bool.or_eq_true, Bool.and_eq_true, decide_eq_true_eq, Char.le_def,
      UInt32.le_iff_toNat_le] at h
    simp only [Char.toNat]
    have h0 : '0'.val.toNat = 0x30 := rfl
    have h9 : '9'.val.toNat = 0x39 := rfl
    have ha : 'a'.val.toNat = 0x61 := rfl
    have hf : 'f'.val.toNat = 0x66 := rfl
    have hA : 'A'.val.toNat = 0x41 := rfl
    have hF : 'F'.val.toNat = 0x46 := rfl
    omega
  simp [endsLine, isControl]
  omega

theorem oneLine_hexId {value : String} (h : isHexId value = true) : OneLine value := by
  unfold isHexId at h
  rw [Bool.and_eq_true, List.all_eq_true] at h
  exact fun c hc => endsLine_of_hexdigit (h.2 c hc)

theorem oneLine_ruleText {vendor product : String} (hvendor : OneLine vendor) (hproduct : OneLine product) :
    OneLine (ruleText vendor product) := by
  apply OneLine.append _ (oneLine_ofList (by decide +kernel))
  apply OneLine.append _ hproduct
  apply OneLine.append _ (oneLine_ofList (by decide +kernel))
  apply OneLine.append _ hvendor
  apply OneLine.append _ (oneLine_ofList (by decide +kernel))
  apply OneLine.append
  · exact oneLine_ofList (by decide +kernel)
  · exact oneLine_ofList (by decide +kernel)

theorem oneLine_udevHeader : ∀ line ∈ udevHeader, OneLine line := by
  have hpath : OneLine udevRulePath := oneLine_ofList (by decide +kernel)
  simp only [udevHeader, List.forall_mem_cons]
  and_intros
  all_goals first
    | with_reducible exact oneLine_ofList (by decide +kernel)
    | exact List.forall_mem_nil _
    | exact OneLine.append (oneLine_ofList (by decide +kernel)) hpath

theorem head?_udevHeader : ∀ line ∈ udevHeader, line.toList.head? = some '#' := by
  simp only [udevHeader, List.forall_mem_cons]
  and_intros
  all_goals first
    | with_reducible exact head?_ofList _ _
    | exact List.forall_mem_nil _
    | exact head?_append (head?_ofList _ _) _

/-- The lines that are written, the last of them ended as the others are. -/
def udevLines (devices : List MouseDevice) : List String :=
  udevHeader ++ devices.flatMap fun d => ["", "# " ++ cleanName d.name, ruleText d.vendor d.product]

theorem udevRule_eq (devices : List MouseDevice) :
    udevRule devices = String.join ((udevLines devices).map fun line => line ++ "
") := by
  have hloop : ∀ rule : String, devices.foldl
      (fun rule device =>
        rule ++ ("
# " ++ cleanName device.name ++ "
" ++ ruleText device.vendor device.product ++ "
")) rule =
      rule ++ String.join ((devices.flatMap fun d =>
        ["", "# " ++ cleanName d.name, ruleText d.vendor d.product]).map fun line => line ++ "
") := by
    induction devices with
    | nil => simp
    | cons device devices ih =>
      intro rule
      rw [List.foldl_cons, ih, List.flatMap_cons, List.map_append, String.join_append]
      simp only [List.map_cons, List.map_nil, String.join_cons, String.join_nil]
      apply String.toList_injective
      simp
  rw [udevRule, hloop, udevLines, List.map_append, String.join_append]

theorem oneLine_udevLines {devices : List MouseDevice} (h : HexIds devices) :
    ∀ line ∈ udevLines devices, OneLine line := by
  intro line hline
  rcases List.mem_append.mp hline with hline | hline
  · exact oneLine_udevHeader line hline
  · obtain ⟨device, hdevice, hline⟩ := List.mem_flatMap.mp hline
    simp only [List.mem_cons, List.not_mem_nil, or_false] at hline
    rcases hline with rfl | rfl | rfl
    · exact oneLine_ofList rfl
    · exact OneLine.append (oneLine_ofList (by decide)) (oneLine_cleanName device.name)
    · exact oneLine_ruleText (oneLine_hexId (h device hdevice).1) (oneLine_hexId (h device hdevice).2)

theorem lines_udevRule {devices : List MouseDevice} (h : HexIds devices) :
    lines (udevRule devices) = udevLines devices ++ [""] := by
  rw [udevRule_eq]
  exact lines_join (oneLine_udevLines h)

/-! ## What is a rule in it -/

def isRule (devices : List MouseDevice) (line : String) : Bool :=
  devices.any fun d => line = ruleText d.vendor d.product

/-- Each line of the text says nothing or is the rule of a listed device, and every device has its rule, in order. -/
structure OnlyRules (devices : List MouseDevice) (text : String) : Prop where
  each : ∀ line ∈ lines text,
    line = "" ∨ line.toList.head? = some '#' ∨ ∃ d ∈ devices, line = ruleText d.vendor d.product
  rules : (lines text).filter (isRule devices) = devices.map fun d => ruleText d.vendor d.product

theorem head?_ruleText (vendor product : String) : (ruleText vendor product).toList.head? = some 'S' := by
  unfold ruleText
  iterate 6 apply head?_append
  exact head?_ofList _ _

theorem isRule_eq_false {devices : List MouseDevice} {line : String} (h : line.toList.head? ≠ some 'S') :
    isRule devices line = false := by
  by_contra hrule
  obtain ⟨device, -, hline⟩ := List.any_eq_true.mp (Bool.of_not_eq_false hrule)
  rw [of_decide_eq_true hline] at h
  exact h (head?_ruleText _ _)

theorem isRule_ruleText {devices : List MouseDevice} {d : MouseDevice} (hd : d ∈ devices) :
    isRule devices (ruleText d.vendor d.product) = true :=
  List.any_eq_true.mpr ⟨d, hd, decide_eq_true rfl⟩

theorem head?_comment (name : String) : ("# " ++ name).toList.head? = some '#' := head?_append (head?_ofList _ _) name

/-- Of what is written for some of the devices, the rules are left, one for each. -/
theorem filter_isRule {devices listed : List MouseDevice} (h : ∀ d ∈ listed, d ∈ devices) :
    (listed.flatMap fun d => ["", "# " ++ cleanName d.name, ruleText d.vendor d.product]).filter
      (isRule devices) = listed.map fun d => ruleText d.vendor d.product := by
  induction listed with
  | nil => rfl
  | cons d listed ih =>
    have hempty : isRule devices "" = false := isRule_eq_false (by decide)
    have hcomment : isRule devices ("# " ++ cleanName d.name) = false :=
      isRule_eq_false (by rw [head?_comment]; decide)
    have hrule := isRule_ruleText (h d List.mem_cons_self)
    have hrest := ih fun d' hd' => h d' (List.mem_cons_of_mem _ hd')
    rw [List.flatMap_cons, List.filter_append, hrest, List.map_cons]
    simp [hempty, hcomment, hrule]

/-- Whatever the devices are called, the file grants access to the listed ones and says nothing else. -/
theorem udevRule_only_rules (devices : List MouseDevice) (h : HexIds devices) :
    OnlyRules devices (udevRule devices) := by
  constructor
  · intro line hline
    rw [lines_udevRule h, List.mem_append, List.mem_singleton, udevLines, List.mem_append] at hline
    rcases hline with (hline | hline) | rfl
    · exact .inr (.inl (head?_udevHeader line hline))
    · obtain ⟨d, hd, hline⟩ := List.mem_flatMap.mp hline
      simp only [List.mem_cons, List.not_mem_nil, or_false] at hline
      rcases hline with rfl | rfl | rfl
      · exact .inl rfl
      · exact .inr (.inl (head?_comment _))
      · exact .inr (.inr ⟨d, hd, rfl⟩)
    · exact .inl rfl
  · have hheader : udevHeader.filter (isRule devices) = [] := by
      apply List.filter_eq_nil_iff.mpr
      intro line hline
      rw [isRule_eq_false (by rw [head?_udevHeader line hline]; decide)]
      decide
    have hend : [""].filter (isRule devices) = [] := by
      rw [List.filter_singleton, isRule_eq_false (by decide)]
      rfl
    rw [lines_udevRule h, udevLines, List.filter_append, List.filter_append, hheader, hend,
      filter_isRule fun _ hd => hd, List.nil_append, List.append_nil]

theorem udevRule_only_rules_hostile :
    OnlyRules [⟨"Mouse\nKERNEL==\"event*\", MODE=\"0666\"", "0000", "0000"⟩]
      (udevRule [⟨"Mouse\nKERNEL==\"event*\", MODE=\"0666\"", "0000", "0000"⟩]) :=
  udevRule_only_rules _ (by
    intro device hdevice
    obtain rfl := List.mem_singleton.mp hdevice
    exact ⟨by decide +kernel, by decide +kernel⟩)

end MouseGrab

end PickleChat
