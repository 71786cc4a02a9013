import PathRules.Text.Runs
/-!
The script of characters, as its code of four letters. A script also has a name, and a few have a
second code.
-/

namespace PathRules.Text

/-- The scripts of all code points in order: four letters and the length of the run, which is one
when no length is written. -/
def scriptTable : String :=
  String.join [
    "Zyyy65Latn26Zyyy6Latn26Zyyy47LatnZyyy15LatnZyyy5Latn23ZyyyLatn31ZyyyLatn449Zyyy39Latn5Zyyy5Bo",
    "po2Zyyy20Zinh112Grek4ZyyyGrek3Zzzz2Grek4ZyyyGrekZzzz4GrekZyyyGrekZyyyGrek3ZzzzGrekZzzzGrek20Z",
    "zzzGrek63Copt14Grek16Cyrl133Zinh2Cyrl169ZzzzArmn38Zzzz2Armn50Zzzz2Armn3ZzzzHebr55Zzzz8Hebr27Z",
    "zzz4Hebr6Zzzz11Arab5ZyyyArab6ZyyyArab14ZyyyArab3ZyyyArab32ZyyyArab10Zinh11Arab26ZinhArab108Zy",
    "yyArab34Syrc14ZzzzSyrc60Zzzz2Syrc3Arab48Thaa50Zzzz14Nkoo59Zzzz2Nkoo3Samr46Zzzz2Samr15ZzzzMand",
    "28Zzzz2MandZzzzSyrc11Zzzz5Arab31ZzzzArab2Zzzz5Arab75ZyyyArab29Deva81Zinh4Deva15Zyyy2Deva26Ben",
    "g4ZzzzBeng8Zzzz2Beng2Zzzz2Beng22ZzzzBeng7ZzzzBengZzzz3Beng4Zzzz2Beng9Zzzz2Beng2Zzzz2Beng4Zzzz",
    "8BengZzzz4Beng2ZzzzBeng5Zzzz2Beng25Zzzz2Guru3ZzzzGuru6Zzzz4Guru2Zzzz2Guru22ZzzzGuru7ZzzzGuru2",
    "ZzzzGuru2ZzzzGuru2Zzzz2GuruZzzzGuru5Zzzz4Guru2Zzzz2Guru3Zzzz3GuruZzzz7Guru4ZzzzGuruZzzz7Guru1",
    "7Zzzz10Gujr3ZzzzGujr9ZzzzGujr3ZzzzGujr22ZzzzGujr7ZzzzGujr2ZzzzGujr5Zzzz2Gujr10ZzzzGujr3ZzzzGu",
    "jr3Zzzz2GujrZzzz15Gujr4Zzzz2Gujr12Zzzz7Gujr7ZzzzOrya3ZzzzOrya8Zzzz2Orya2Zzzz2Orya22ZzzzOrya7Z",
    "zzzOrya2ZzzzOrya5Zzzz2Orya9Zzzz2Orya2Zzzz2Orya3Zzzz7Orya3Zzzz4Orya2ZzzzOrya5Zzzz2Orya18Zzzz10",
    "Taml2ZzzzTaml6Zzzz3Taml3ZzzzTaml4Zzzz3Taml2ZzzzTamlZzzzTaml2Zzzz3Taml2Zzzz3Taml3Zzzz3Taml12Zz",
    "zz4Taml5Zzzz3Taml3ZzzzTaml4Zzzz2TamlZzzz6TamlZzzz14Taml21Zzzz5Telu13ZzzzTelu3ZzzzTelu23ZzzzTe",
    "lu16Zzzz2Telu9ZzzzTelu3ZzzzTelu4Zzzz7Telu2ZzzzTelu3Zzzz2TeluZzzz2Telu4Zzzz2Telu10Zzzz7Telu9Kn",
    "da13ZzzzKnda3ZzzzKnda23ZzzzKnda10ZzzzKnda5Zzzz2Knda9ZzzzKnda3ZzzzKnda4Zzzz7Knda2Zzzz6Knda2Zzz",
    "zKnda4Zzzz2Knda10ZzzzKnda3Zzzz12Mlym13ZzzzMlym3ZzzzMlym51ZzzzMlym3ZzzzMlym6Zzzz4Mlym16Zzzz2Ml",
    "ym26ZzzzSinh3ZzzzSinh18Zzzz3Sinh24ZzzzSinh9ZzzzSinhZzzz2Sinh7Zzzz3SinhZzzz4Sinh6ZzzzSinhZzzzS",
    "inh8Zzzz6Sinh10Zzzz2Sinh3Zzzz12Thai58Zzzz4ZyyyThai28Zzzz37Laoo2ZzzzLaooZzzzLaoo5ZzzzLaoo24Zzz",
    "zLaooZzzzLaoo23Zzzz2Laoo5ZzzzLaooZzzzLaoo7ZzzzLaoo10Zzzz2Laoo4Zzzz32Tibt72ZzzzTibt36Zzzz4Tibt",
    "39ZzzzTibt36ZzzzTibt15ZzzzTibt7Zyyy4Tibt2Zzzz37Mymr160Geor38ZzzzGeorZzzz5GeorZzzz2Geor43ZyyyG",
    "eor4Hang256Ethi73ZzzzEthi4Zzzz2Ethi7ZzzzEthiZzzzEthi4Zzzz2Ethi41ZzzzEthi4Zzzz2Ethi33ZzzzEthi4",
    "Zzzz2Ethi7ZzzzEthiZzzzEthi4Zzzz2Ethi15ZzzzEthi57ZzzzEthi4Zzzz2Ethi67Zzzz2Ethi32Zzzz3Ethi26Zzz",
    "z6Cher86Zzzz2Cher6Zzzz2Cans640Ogam29Zzzz3Runr75Zyyy3Runr11Zzzz7Tglg22Zzzz9TglgHano21Zyyy2Zzzz",
    "9Buhd20Zzzz12Tagb13ZzzzTagb3ZzzzTagb2Zzzz12Khmr94Zzzz2Khmr10Zzzz6Khmr10Zzzz6Mong2Zyyy2MongZyy",
    "yMong20Zzzz6Mong89Zzzz7Mong43Zzzz5Cans70Zzzz10Limb31ZzzzLimb12Zzzz4Limb12Zzzz4LimbZzzz3Limb12",
    "Tale30Zzzz2Tale5Zzzz11Talu44Zzzz4Talu26Zzzz6Talu11Zzzz3Talu2Khmr32Bugi28Zzzz2Bugi2Lana63ZzzzL",
    "ana29Zzzz2Lana11Zzzz6Lana10Zzzz6Lana14Zzzz2Zinh31Zzzz49Bali77ZzzzBali50Sund64Batk52Zzzz8Batk4",
    "Lepc56Zzzz3Lepc15Zzzz3Lepc3Olck48Cyrl11Zzzz5Geor43Zzzz2Geor3Sund8Zzzz8Zinh3ZyyyZinh13ZyyyZinh",
    "7Zyyy4ZinhZyyy6ZinhZyyy3Zinh2ZyyyZzzz5Latn38Grek5CyrlLatn49Grek5Latn4Grek5Latn13CyrlLatn70Gre",
    "kZinh64Latn256Grek22Zzzz2Grek6Zzzz2Grek38Zzzz2Grek6Zzzz2Grek8ZzzzGrekZzzzGrekZzzzGrekZzzzGrek",
    "31Zzzz2Grek53ZzzzGrek15ZzzzGrek14Zzzz2Grek6ZzzzGrek19Zzzz2Grek3ZzzzGrek9ZzzzZyyy12Zinh2Zyyy87",
    "ZzzzZyyy11LatnZzzz2Zyyy11LatnZyyy15ZzzzLatn13Zzzz3Zyyy33Zzzz15Zinh33Zzzz15Zyyy38GrekZyyy3Latn",
    "2Zyyy6LatnZyyy27LatnZyyy17Latn41Zyyy3Zzzz4Zyyy666Zzzz22Zyyy11Zzzz21Zyyy928Brai256Zyyy628Zzzz2",
    "Zyyy32ZzzzZyyy105Glag96Latn32Copt116Zzzz5Copt7Geor38ZzzzGeorZzzz5GeorZzzz2Tfng56Zzzz7Tfng2Zzz",
    "z14TfngEthi23Zzzz9Ethi7ZzzzEthi7ZzzzEthi7ZzzzEthi7ZzzzEthi7ZzzzEthi7ZzzzEthi7ZzzzEthi7ZzzzCyr",
    "l32Zyyy94Zzzz34Hani26ZzzzHani89Zzzz12Hani214Zzzz26Zyyy21HaniZyyyHaniZyyy25Hani9Zinh4Hang2Zyyy",
    "8Hani4Zyyy4ZzzzHira86Zzzz2Zinh2Zyyy2Hira3ZyyyKana90Zyyy2Kana3Zzzz5Bopo43ZzzzHang94ZzzzZyyy16B",
    "opo32Zyyy38Zzzz9ZyyyKana16Hang31ZzzzZyyy64Hang31Zyyy81Kana47ZyyyKana88Zyyy168Hani6592Zyyy64Ha",
    "ni20992Yiii1165Zzzz3Yiii55Zzzz9Lisu48Vaii300Zzzz20Cyrl96Bamu88Zzzz8Zyyy34Latn102Zyyy3Latn67Zz",
    "zz2Latn2ZzzzLatnZzzzLatn8Zzzz21Latn14Sylo45Zzzz3Zyyy10Zzzz6Phag56Zzzz8Saur70Zzzz8Saur12Zzzz6D",
    "eva32Kali46ZyyyKaliRjng36Zzzz11RjngHang29Zzzz3Java78ZzzzZyyyJava10Zzzz4Java2Mymr31ZzzzCham55Z",
    "zzz9Cham14Zzzz2Cham10Zzzz2Cham4Mymr32Tavt67Zzzz24Tavt5Mtei23Zzzz10Ethi6Zzzz2Ethi6Zzzz2Ethi6Zz",
    "zz9Ethi7ZzzzEthi7ZzzzLatn43ZyyyLatn9GrekLatn4Zyyy2Zzzz4Cher80Mtei46Zzzz2Mtei10Zzzz6Hang11172Z",
    "zzz12Hang23Zzzz4Hang49Zzzz8452Hani366Zzzz2Hani106Zzzz38Latn7Zzzz12Armn5Zzzz5Hebr26ZzzzHebr5Zz",
    "zzHebrZzzzHebr2ZzzzHebr2ZzzzHebr10Arab115Zzzz16Arab363Zyyy2Arab80Zzzz2Arab54Zzzz7ArabZzzz32Ar",
    "ab16Zinh16Zyyy10Zzzz6Zinh14Cyrl2Zyyy35ZzzzZyyy19ZzzzZyyy4Zzzz4Arab5ZzzzArab135Zzzz2ZyyyZzzzZy",
    "yy32Latn26Zyyy6Latn26Zyyy11Kana10ZyyyKana45Zyyy2Hang31Zzzz3Hang6Zzzz2Hang6Zzzz2Hang6Zzzz2Hang",
    "3Zzzz3Zyyy7ZzzzZyyy7Zzzz10Zyyy5Zzzz2Linb12ZzzzLinb26ZzzzLinb19ZzzzLinb2ZzzzLinb15Zzzz2Linb14Z",
    "zzz34Linb123Zzzz5Zyyy3Zzzz4Zyyy45Zzzz3Zyyy9Grek79ZzzzZyyy13Zzzz3GrekZzzz47Zyyy45ZinhZzzz130Ly",
    "ci29Zzzz3Cari49Zzzz15ZinhZyyy27Zzzz4Ital36Zzzz9Ital3Goth27Zzzz5Perm43Zzzz5Ugar30ZzzzUgarXpeo3",
    "6Zzzz4Xpeo14Zzzz42Dsrt80Shaw48Osma30Zzzz2Osma10Zzzz6Osge36Zzzz4Osge36Zzzz4Elba40Zzzz8Aghb52Zz",
    "zz11AghbVith11ZzzzVith15ZzzzVith7ZzzzVith2ZzzzVith11ZzzzVith15ZzzzVith7ZzzzVith2Zzzz3Todr52Zz",
    "zz12Lina311Zzzz9Lina22Zzzz10Lina8Zzzz24Latn6ZzzzLatn42ZzzzLatn9Zzzz69Cprt6Zzzz2CprtZzzzCprt44",
    "ZzzzCprt2Zzzz3CprtZzzz2CprtArmi22ZzzzArmi9Palm32Nbat31Zzzz8Nbat9Zzzz48Hatr19ZzzzHatr2Zzzz5Hat",
    "r5Phnx28Zzzz3PhnxLydi26Zzzz5LydiZzzz64Mero32Merc24Zzzz4Merc20Zzzz2Merc46Khar4ZzzzKhar2Zzzz5Kh",
    "ar8ZzzzKhar3ZzzzKhar29Zzzz2Khar3Zzzz4Khar10Zzzz7Khar9Zzzz7Sarb32Narb32Zzzz32Mani39Zzzz4Mani12",
    "Zzzz9Avst54Zzzz3Avst7Prti22Zzzz2Prti8Phli19Zzzz5Phli8Phlp18Zzzz7Phlp4Zzzz12Phlp7Zzzz80Orkh73Z",
    "zzz55Hung51Zzzz13Hung51Zzzz7Hung6Rohg40Zzzz8Rohg10Zzzz6Gara38Zzzz3Gara29Zzzz8Gara2Zzzz208Arab",
    "31ZzzzYezi42ZzzzYezi3Zzzz2Yezi2Zzzz16Arab3Zzzz55Arab4Sogo40Zzzz8Sogd42Zzzz22Ougr26Zzzz38Chrs2",
    "8Zzzz20Elym23Zzzz9Brah78Zzzz4Brah36Zzzz9BrahKthi67Zzzz10KthiZzzz2Sora25Zzzz7Sora10Zzzz6Cakm53",
    "ZzzzCakm18Zzzz8Mahj39Zzzz9Shrd96ZzzzSinh20Zzzz11Khoj18ZzzzKhoj47Zzzz62Mult7ZzzzMultZzzzMult4Z",
    "zzzMult15ZzzzMult11Zzzz6Sind59Zzzz5Sind10Zzzz6Gran4ZzzzGran8Zzzz2Gran2Zzzz2Gran22ZzzzGran7Zzz",
    "zGran2ZzzzGran5ZzzzZinhGran9Zzzz2Gran2Zzzz2Gran3Zzzz2GranZzzz6GranZzzz5Gran7Zzzz2Gran7Zzzz3Gr",
    "an5Zzzz11Tutg10ZzzzTutgZzzz2TutgZzzzTutg38ZzzzTutg10ZzzzTutgZzzz2TutgZzzzTutg4ZzzzTutg10ZzzzT",
    "utg2Zzzz8Tutg2Zzzz29Newa92ZzzzNewa5Zzzz30Tirh72Zzzz8Tirh10Zzzz166Sidd54Zzzz2Sidd38Zzzz34Modi6",
    "9Zzzz11Modi10Zzzz6Mong13Zzzz19Takr58Zzzz6Takr10Zzzz6Mymr20Zzzz28Ahom27Zzzz2Ahom15Zzzz4Ahom23Z",
    "zzz185Dogr60Zzzz100Wara83Zzzz12WaraDiak7Zzzz2DiakZzzz2Diak8ZzzzDiak2ZzzzDiak30ZzzzDiak2Zzzz2D",
    "iak12Zzzz9Diak10Zzzz70Nand8Zzzz2Nand46Zzzz2Nand11Zzzz27Zanb72Zzzz8Soyo83Zzzz13Cans16Pauc57Zzz",
    "z7Deva10Zzzz182Sunu34Zzzz14Sunu10Zzzz6Bhks9ZzzzBhks45ZzzzBhks14Zzzz10Bhks29Zzzz3Marc32Zzzz2Ma",
    "rc22ZzzzMarc14Zzzz73Gonm7ZzzzGonm2ZzzzGonm44Zzzz3GonmZzzzGonm2ZzzzGonm9Zzzz8Gonm10Zzzz6Gong6Z",
    "zzzGong2ZzzzGong37ZzzzGong2ZzzzGong6Zzzz7Gong10Zzzz310Maka25Zzzz7Kawi17ZzzzKawi41Zzzz3Kawi29Z",
    "zzz85LisuZzzz15Taml50Zzzz13TamlXsux922Zzzz102Xsux111ZzzzXsux5Zzzz11Xsux196Zzzz2636Cpmn99Zzzz1",
    "3Egyp1110Zzzz10Egyp3995Zzzz5Hluw583Zzzz6841Gukh58Zzzz1734Bamu569Zzzz7Mroo31ZzzzMroo10Zzzz4Mro",
    "o2Tnsa79ZzzzTnsa10Zzzz6Bass30Zzzz2Bass6Zzzz10Hmng70Zzzz10Hmng10ZzzzHmng7ZzzzHmng21Zzzz5Hmng19",
    "Zzzz432Krai58Zzzz198Medf91Zzzz101Plrd75Zzzz4Plrd57Zzzz7Plrd17Zzzz64TangNshuHani2KitsZzzz11Han",
    "i2Zzzz14Tang6136Zzzz8Tang768Kits470Zzzz41KitsTang9Zzzz8935Kana4ZzzzKana7ZzzzKana2ZzzzKanaHira",
    "287Kana3Zzzz15HiraZzzz29Hira3Zzzz2KanaZzzz14Kana4Zzzz8Nshu396Zzzz2308Dupl107Zzzz5Dupl13Zzzz3D",
    "upl9Zzzz7Dupl10Zzzz2Dupl4Zyyy4Zzzz3932Zyyy250Zzzz6Zyyy436Zzzz76Zinh46Zzzz2Zinh23Zzzz9Zyyy116Z",
    "zzz60Zyyy246Zzzz10Zyyy39Zzzz2Zyyy62Zinh3Zyyy17Zinh8Zyyy2Zinh7Zyyy30Zinh4Zyyy61Zzzz21Grek70Zzz",
    "z122Zyyy20Zzzz12Zyyy20Zzzz12Zyyy87Zzzz9Zyyy25Zzzz135Zyyy85ZzzzZyyy71ZzzzZyyy2Zzzz2ZyyyZzzz2Zy",
    "yy2Zzzz2Zyyy4ZzzzZyyy12ZzzzZyyyZzzzZyyy7ZzzzZyyy65ZzzzZyyy4Zzzz2Zyyy8ZzzzZyyy7ZzzzZyyy28ZzzzZ",
    "yyy4ZzzzZyyy5ZzzzZyyyZzzz3Zyyy7ZzzzZyyy340Zzzz2Zyyy292Zzzz2Zyyy50Sgnw652Zzzz15Sgnw5ZzzzSgnw15",
    "Zzzz1104Latn31Zzzz6Latn6Zzzz213Glag7ZzzzGlag17Zzzz2Glag7ZzzzGlag2ZzzzGlag5Zzzz5Cyrl62Zzzz33Cy",
    "rlZzzz112Hmnp45Zzzz3Hmnp14Zzzz2Hmnp10Zzzz4Hmnp2Zzzz320Toto31Zzzz17Wcho58Zzzz5WchoZzzz464Nagm4",
    "2Zzzz214Onao43Zzzz4OnaoZzzz480Ethi7ZzzzEthi4ZzzzEthi2ZzzzEthi15ZzzzMend197Zzzz2Mend16Zzzz41Ad",
    "lm76Zzzz4Adlm10Zzzz4Adlm2Zzzz785Zyyy68Zzzz76Zyyy61Zzzz194Arab4ZzzzArab27ZzzzArab2ZzzzArabZzzz",
    "2ArabZzzzArab10ZzzzArab4ZzzzArabZzzzArabZzzz6ArabZzzz4ArabZzzzArabZzzzArabZzzzArab3ZzzzArab2Z",
    "zzzArabZzzz2ArabZzzzArabZzzzArabZzzzArabZzzzArabZzzzArab2ZzzzArabZzzz2Arab4ZzzzArab7ZzzzArab4",
    "ZzzzArab4ZzzzArabZzzzArab10ZzzzArab17Zzzz5Arab3ZzzzArab5ZzzzArab17Zzzz52Arab2Zzzz270Zyyy44Zzz",
    "z4Zyyy100Zzzz12Zyyy15Zzzz2Zyyy15ZzzzZyyy15ZzzzZyyy37Zzzz10Zyyy174Zzzz56Zyyy26HiraZyyy2Zzzz13Z",
    "yyy44Zzzz4Zyyy9Zzzz7Zyyy2Zzzz14Zyyy6Zzzz154Zyyy984Zzzz4Zyyy17Zzzz3Zyyy13Zzzz3Zyyy119Zzzz4Zyyy",
    "95Zzzz6Zyyy12Zzzz4ZyyyZzzz15Zyyy12Zzzz4Zyyy56Zzzz8Zyyy10Zzzz6Zyyy40Zzzz8Zyyy30Zzzz2Zyyy12Zzzz",
    "4Zyyy2Zzzz62Zyyy340Zzzz12Zyyy14Zzzz2Zyyy13Zzzz3Zyyy10Zzzz5Zyyy56Zzzz7Zyyy15Zzzz2Zyyy11Zzzz6Zy",
    "yy9Zzzz7Zyyy147ZzzzZyyy102Zzzz1030Hani42720Zzzz32Hani4154Zzzz6Hani222Zzzz2Hani5762Zzzz14Hani7",
    "473Zzzz15Hani622Zzzz2466Hani542Zzzz1506Hani4939Zzzz5Hani4192Zzzz711761ZyyyZzzz30Zyyy96Zzzz128",
    "Zinh240Zzzz196112"]

def scriptRuns : List (Nat × String) :=
  readRuns 4 0 scriptTable.toList.length scriptTable.toList

/-- The code of the script of a character. Characters without a script have `Zzzz`. -/
def script (c : Char) : String :=
  valueAt scriptRuns "Zzzz" c.toNat

def scriptSet (code : String) : CharSet :=
  .ofRanges (rangesWhere (· == code) scriptRuns)

/-- The codes of the scripts with their names in small letters without separators. -/
def scriptNames : List (String × String) :=
  [("Adlm", "adlam"), ("Aghb", "caucasianalbanian"), ("Ahom", "ahom"), ("Arab", "arabic"),
    ("Armi", "imperialaramaic"), ("Armn", "armenian"), ("Avst", "avestan"), ("Bali", "balinese"),
    ("Bamu", "bamum"), ("Bass", "bassavah"), ("Batk", "batak"), ("Beng", "bengali"),
    ("Bhks", "bhaiksuki"), ("Bopo", "bopomofo"), ("Brah", "brahmi"), ("Brai", "braille"),
    ("Bugi", "buginese"), ("Buhd", "buhid"), ("Cakm", "chakma"), ("Cans", "canadianaboriginal"),
    ("Cari", "carian"), ("Cham", "cham"), ("Cher", "cherokee"), ("Chrs", "chorasmian"),
    ("Copt", "coptic"), ("Copt", "qaac"), ("Cpmn", "cyprominoan"), ("Cprt", "cypriot"),
    ("Cyrl", "cyrillic"), ("Deva", "devanagari"), ("Diak", "divesakuru"), ("Dogr", "dogra"),
    ("Dsrt", "deseret"), ("Dupl", "duployan"), ("Egyp", "egyptianhieroglyphs"),
    ("Elba", "elbasan"), ("Elym", "elymaic"), ("Ethi", "ethiopic"), ("Gara", "garay"),
    ("Geor", "georgian"), ("Glag", "glagolitic"), ("Gong", "gunjalagondi"),
    ("Gonm", "masaramgondi"), ("Goth", "gothic"), ("Gran", "grantha"), ("Grek", "greek"),
    ("Gujr", "gujarati"), ("Gukh", "gurungkhema"), ("Guru", "gurmukhi"), ("Hang", "hangul"),
    ("Hani", "han"), ("Hano", "hanunoo"), ("Hatr", "hatran"), ("Hebr", "hebrew"),
    ("Hira", "hiragana"), ("Hluw", "anatolianhieroglyphs"), ("Hmng", "pahawhhmong"),
    ("Hmnp", "nyiakengpuachuehmong"), ("Hung", "oldhungarian"), ("Ital", "olditalic"),
    ("Java", "javanese"), ("Kali", "kayahli"), ("Kana", "katakana"), ("Kawi", "kawi"),
    ("Khar", "kharoshthi"), ("Khmr", "khmer"), ("Khoj", "khojki"), ("Kits", "khitansmallscript"),
    ("Knda", "kannada"), ("Krai", "kiratrai"), ("Kthi", "kaithi"), ("Lana", "taitham"),
    ("Laoo", "lao"), ("Latn", "latin"), ("Lepc", "lepcha"), ("Limb", "limbu"), ("Lina", "lineara"),
    ("Linb", "linearb"), ("Lisu", "lisu"), ("Lyci", "lycian"), ("Lydi", "lydian"),
    ("Mahj", "mahajani"), ("Maka", "makasar"), ("Mand", "mandaic"), ("Mani", "manichaean"),
    ("Marc", "marchen"), ("Medf", "medefaidrin"), ("Mend", "mendekikakui"),
    ("Merc", "meroiticcursive"), ("Mero", "meroitichieroglyphs"), ("Mlym", "malayalam"),
    ("Modi", "modi"), ("Mong", "mongolian"), ("Mroo", "mro"), ("Mtei", "meeteimayek"),
    ("Mult", "multani"), ("Mymr", "myanmar"), ("Nagm", "nagmundari"), ("Nand", "nandinagari"),
    ("Narb", "oldnortharabian"), ("Nbat", "nabataean"), ("Newa", "newa"), ("Nkoo", "nko"),
    ("Nshu", "nushu"), ("Ogam", "ogham"), ("Olck", "olchiki"), ("Onao", "olonal"),
    ("Orkh", "oldturkic"), ("Orya", "oriya"), ("Osge", "osage"), ("Osma", "osmanya"),
    ("Ougr", "olduyghur"), ("Palm", "palmyrene"), ("Pauc", "paucinhau"), ("Perm", "oldpermic"),
    ("Phag", "phagspa"), ("Phli", "inscriptionalpahlavi"), ("Phlp", "psalterpahlavi"),
    ("Phnx", "phoenician"), ("Plrd", "miao"), ("Prti", "inscriptionalparthian"),
    ("Rjng", "rejang"), ("Rohg", "hanifirohingya"), ("Runr", "runic"), ("Samr", "samaritan"),
    ("Sarb", "oldsoutharabian"), ("Saur", "saurashtra"), ("Sgnw", "signwriting"),
    ("Shaw", "shavian"), ("Shrd", "sharada"), ("Sidd", "siddham"), ("Sind", "khudawadi"),
    ("Sinh", "sinhala"), ("Sogd", "sogdian"), ("Sogo", "oldsogdian"), ("Sora", "sorasompeng"),
    ("Soyo", "soyombo"), ("Sund", "sundanese"), ("Sunu", "sunuwar"), ("Sylo", "sylotinagri"),
    ("Syrc", "syriac"), ("Tagb", "tagbanwa"), ("Takr", "takri"), ("Tale", "taile"),
    ("Talu", "newtailue"), ("Taml", "tamil"), ("Tang", "tangut"), ("Tavt", "taiviet"),
    ("Telu", "telugu"), ("Tfng", "tifinagh"), ("Tglg", "tagalog"), ("Thaa", "thaana"),
    ("Thai", "thai"), ("Tibt", "tibetan"), ("Tirh", "tirhuta"), ("Tnsa", "tangsa"),
    ("Todr", "todhri"), ("Toto", "toto"), ("Tutg", "tulutigalari"), ("Ugar", "ugaritic"),
    ("Vaii", "vai"), ("Vith", "vithkuqi"), ("Wara", "warangciti"), ("Wcho", "wancho"),
    ("Xpeo", "oldpersian"), ("Xsux", "cuneiform"), ("Yezi", "yezidi"), ("Yiii", "yi"),
    ("Zanb", "zanabazarsquare"), ("Zinh", "inherited"), ("Zinh", "qaai"), ("Zyyy", "common")]

/-- The code of the script with a name or a code, given in small letters without separators. -/
def scriptNamed? (name : String) : Option String :=
  (scriptNames.find? fun (code, full) =>
    full == name || String.ofList (code.toList.map Char.toLower) == name).map Prod.fst

end PathRules.Text
