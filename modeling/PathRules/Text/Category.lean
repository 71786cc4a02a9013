import PathRules.Text.Runs
/-!
The general category of characters. The table assigns a category to every code point in runs; the
category of a character is the one of the run that it lies in.
-/

namespace PathRules.Text

/-- The general categories. -/
inductive Category where
  | uppercaseLetter | lowercaseLetter | titlecaseLetter
  | modifierLetter | otherLetter | nonspacingMark
  | spacingMark | enclosingMark | decimalNumber
  | letterNumber | otherNumber | connectorPunctuation
  | dashPunctuation | openPunctuation | closePunctuation
  | initialPunctuation | finalPunctuation | otherPunctuation
  | mathSymbol | currencySymbol | modifierSymbol
  | otherSymbol | spaceSeparator | lineSeparator
  | paragraphSeparator | control | format
  | surrogate | privateUse | unassigned
  deriving DecidableEq, Repr

namespace Category

/-- The two letters that stand for a category. -/
def letters : Category → String
  | uppercaseLetter => "Lu"
  | lowercaseLetter => "Ll"
  | titlecaseLetter => "Lt"
  | modifierLetter => "Lm"
  | otherLetter => "Lo"
  | nonspacingMark => "Mn"
  | spacingMark => "Mc"
  | enclosingMark => "Me"
  | decimalNumber => "Nd"
  | letterNumber => "Nl"
  | otherNumber => "No"
  | connectorPunctuation => "Pc"
  | dashPunctuation => "Pd"
  | openPunctuation => "Ps"
  | closePunctuation => "Pe"
  | initialPunctuation => "Pi"
  | finalPunctuation => "Pf"
  | otherPunctuation => "Po"
  | mathSymbol => "Sm"
  | currencySymbol => "Sc"
  | modifierSymbol => "Sk"
  | otherSymbol => "So"
  | spaceSeparator => "Zs"
  | lineSeparator => "Zl"
  | paragraphSeparator => "Zp"
  | control => "Cc"
  | format => "Cf"
  | surrogate => "Cs"
  | privateUse => "Co"
  | unassigned => "Cn"

/-- The name of a category in small letters without separators. -/
def name : Category → String
  | uppercaseLetter => "uppercaseletter"
  | lowercaseLetter => "lowercaseletter"
  | titlecaseLetter => "titlecaseletter"
  | modifierLetter => "modifierletter"
  | otherLetter => "otherletter"
  | nonspacingMark => "nonspacingmark"
  | spacingMark => "spacingmark"
  | enclosingMark => "enclosingmark"
  | decimalNumber => "decimalnumber"
  | letterNumber => "letternumber"
  | otherNumber => "othernumber"
  | connectorPunctuation => "connectorpunctuation"
  | dashPunctuation => "dashpunctuation"
  | openPunctuation => "openpunctuation"
  | closePunctuation => "closepunctuation"
  | initialPunctuation => "initialpunctuation"
  | finalPunctuation => "finalpunctuation"
  | otherPunctuation => "otherpunctuation"
  | mathSymbol => "mathsymbol"
  | currencySymbol => "currencysymbol"
  | modifierSymbol => "modifiersymbol"
  | otherSymbol => "othersymbol"
  | spaceSeparator => "spaceseparator"
  | lineSeparator => "lineseparator"
  | paragraphSeparator => "paragraphseparator"
  | control => "control"
  | format => "format"
  | surrogate => "surrogate"
  | privateUse => "privateuse"
  | unassigned => "unassigned"

def all : List Category :=
  [uppercaseLetter, lowercaseLetter, titlecaseLetter, modifierLetter, otherLetter,
    nonspacingMark, spacingMark, enclosingMark, decimalNumber, letterNumber, otherNumber,
    connectorPunctuation, dashPunctuation, openPunctuation, closePunctuation,
    initialPunctuation, finalPunctuation, otherPunctuation, mathSymbol, currencySymbol,
    modifierSymbol, otherSymbol, spaceSeparator, lineSeparator, paragraphSeparator, control,
    format, surrogate, privateUse, unassigned]

/-- The category that two letters stand for; letters that stand for none are read as unassigned. -/
def ofLetters (letters : String) : Category :=
  (all.find? fun c => c.letters == letters).getD unassigned

/-- The categories whose letters begin with the given letter. -/
def group (initial : Char) : List Category :=
  all.filter fun c => c.letters.toList.head? == some initial

end Category

/-- The categories of all code points in order: two letters and the length of the run, which is one
when no length is written. -/
def categoryTable : String :=
  String.join [
    "Cc32ZsPo3ScPo3PsPePoSmPoPdPo2Nd10Po2Sm3Po2Lu26PsPoPeSkPcSkLl26PsSmPeSmCc33ZsPoSc4SoPoSkSoLoPi",
    "SmCfSoSkSoSmNo2SkLlPo2SkNoLoPfNo3PoLu23SmLu7Ll24SmLl8LuLlLuLlLuLlLuLlLuLlLuLlLuLlLuLlLuLlLuLl",
    "LuLlLuLlLuLlLuLlLuLlLuLlLuLlLuLlLuLlLuLlLuLlLuLlLuLlLuLlLuLlLuLlLuLlLuLl2LuLlLuLlLuLlLuLlLuLl",
    "LuLlLuLlLuLl2LuLlLuLlLuLlLuLlLuLlLuLlLuLlLuLlLuLlLuLlLuLlLuLlLuLlLuLlLuLlLuLlLuLlLuLlLuLlLuLl",
    "LuLlLuLlLuLlLu2LlLuLlLuLl3Lu2LlLuLlLu2LlLu3Ll2Lu4LlLu2LlLu3Ll3Lu2LlLu2LlLuLlLuLlLu2LlLuLl2LuL",
    "lLu2LlLu3LlLuLlLu2Ll2LoLuLl3Lo4LuLtLlLuLtLlLuLtLlLuLlLuLlLuLlLuLlLuLlLuLlLuLlLuLl2LuLlLuLlLuL",
    "lLuLlLuLlLuLlLuLlLuLlLuLl2LuLtLlLuLlLu3LlLuLlLuLlLuLlLuLlLuLlLuLlLuLlLuLlLuLlLuLlLuLlLuLlLuLl",
    "LuLlLuLlLuLlLuLlLuLlLuLlLuLlLuLlLuLlLuLlLuLlLuLlLuLlLuLlLuLlLuLl7Lu2LlLu2Ll2LuLlLu4LlLuLlLuLl",
    "LuLlLuLl69LoLl27Lm18Sk4Lm12Sk14Lm5Sk7LmSkLmSk17Mn112LuLlLuLlLmSkLuLlCn2LmLl3PoLuCn4Sk2LuPoLu3",
    "CnLuCnLu2LlLu17CnLu9Ll35LuLl2Lu3Ll3LuLlLuLlLuLlLuLlLuLlLuLlLuLlLuLlLuLlLuLlLuLlLuLl5LuLlSmLuL",
    "lLu2Ll2Lu51Ll48LuLlLuLlLuLlLuLlLuLlLuLlLuLlLuLlLuLlLuLlLuLlLuLlLuLlLuLlLuLlLuLlLuLlSoMn5Me2Lu",
    "LlLuLlLuLlLuLlLuLlLuLlLuLlLuLlLuLlLuLlLuLlLuLlLuLlLuLlLuLlLuLlLuLlLuLlLuLlLuLlLuLlLuLlLuLlLuL",
    "lLuLlLuLlLuLlLu2LlLuLlLuLlLuLlLuLlLuLlLuLl2LuLlLuLlLuLlLuLlLuLlLuLlLuLlLuLlLuLlLuLlLuLlLuLlLu",
    "LlLuLlLuLlLuLlLuLlLuLlLuLlLuLlLuLlLuLlLuLlLuLlLuLlLuLlLuLlLuLlLuLlLuLlLuLlLuLlLuLlLuLlLuLlLuL",
    "lLuLlLuLlLuLlLuLlLuLlLuLlLuLlLuLlLuLlLuLlLuLlLuLlCnLu38Cn2LmPo6Ll41PoPdCn2So2ScCnMn45PdMnPoMn",
    "2PoMn2PoMnCn8Lo27Cn4Lo4Po2Cn11Cf6Sm3Po2ScPo2So2Mn11PoCfPo3Lo32LmLo10Mn21Nd10Po4Lo2MnLo99PoLoM",
    "n7CfSoMn6Lm2Mn2SoMn4Lo2Nd10Lo3So2LoPo14CnCfLoMnLo30Mn27Cn2Lo89Mn11LoCn14Nd10Lo33Mn9Lm2SoPo3Lm",
    "Cn2MnSc2Lo22Mn4LmMn9LmMn3LmMn5Cn2Po15CnLo25Mn3Cn2PoCnLo11Cn5Lo24SkLo6CnCf2Cn5Mn9Lo41LmMn24CfM",
    "n32McLo54MnMcMnLoMc3Mn8Mc4MnMc2LoMn7Lo10Mn2Po2Nd10PoLmLo15MnMc2CnLo8Cn2Lo2Cn2Lo22CnLo7CnLoCn3",
    "Lo4Cn2MnLoMc3Mn4Cn2Mc2Cn2Mc2MnLoCn8McCn4Lo2CnLo3Mn2Cn2Nd10Lo2Sc2No6SoScLoPoMnCn2Mn2McCnLo6Cn4",
    "Lo2Cn2Lo22CnLo7CnLo2CnLo2CnLo2Cn2MnCnMc3Mn2Cn4Mn2Cn2Mn3Cn3MnCn7Lo4CnLoCn7Nd10Mn2Lo3MnPoCn10Mn",
    "2McCnLo9CnLo3CnLo22CnLo7CnLo2CnLo5Cn2MnLoMc3Mn5CnMn2McCnMc2MnCn2LoCn15Lo2Mn2Cn2Nd10PoScCn7LoM",
    "n6CnMnMc2CnLo8Cn2Lo2Cn2Lo22CnLo7CnLo2CnLo5Cn2MnLoMcMnMcMn4Cn2Mc2Cn2Mc2MnCn7Mn2McCn4Lo2CnLo3Mn",
    "2Cn2Nd10SoLoNo6Cn10MnLoCnLo6Cn3Lo3CnLo4Cn3Lo2CnLoCnLo2Cn3Lo2Cn3Lo3Cn3Lo12Cn4Mc2MnMc2Cn3Mc3CnM",
    "c3MnCn2LoCn6McCn14Nd10No3So6ScSoCn5MnMc3MnLo8CnLo3CnLo23CnLo16Cn2MnLoMn3Mc4CnMn3CnMn4Cn7Mn2Cn",
    "Lo3Cn2LoCn2Lo2Mn2Cn2Nd10Cn7PoNo7SoLoMnMc2PoLo8CnLo3CnLo23CnLo10CnLo5Cn2MnLoMcMnMc5CnMnMc2CnMc",
    "2Mn2Cn7Mc2Cn6Lo2CnLo2Mn2Cn2Nd10CnLo2McCn12Mn2Mc2Lo9CnLo3CnLo41Mn2LoMc3Mn4CnMc3CnMc3MnLoSoCn4L",
    "o3McNo7Lo3Mn2Cn2Nd10No9SoLo6CnMnMc2CnLo18Cn3Lo24CnLo9CnLoCn2Lo7Cn3MnCn4Mc3Mn3CnMnCnMc8Cn6Nd10",
    "Cn2Mc2PoCn12Lo48MnLo2Mn7Cn4ScLo6LmMn8PoNd10Po2Cn37Lo2CnLoCnLo5CnLo24CnLoCnLo10MnLo2Mn9LoCn2Lo",
    "5CnLmCnMn7CnNd10Cn2Lo4Cn32LoSo3Po15SoPoSo3Mn2So6Nd10No10SoMnSoMnSoMnPsPePsPeMc2Lo8CnLo36Cn4Mn",
    "14McMn5PoMn2Lo5Mn11CnMn36CnSo8MnSo6CnSo2Po5So4Po2Cn37Lo43Mc2Mn4McMn6McMn2Mc2Mn2LoNd10Po6Lo6Mc",
    "2Mn2Lo4Mn3LoMc3Lo2Mc7Lo3Mn4Lo13MnMc2Mn2Mc6MnLoMcNd10Mc3MnSo2Lu38CnLuCn5LuCn2Ll43PoLmLl3Lo329C",
    "nLo4Cn2Lo7CnLoCnLo4Cn2Lo41CnLo4Cn2Lo33CnLo4Cn2Lo7CnLoCnLo4Cn2Lo15CnLo57CnLo4Cn2Lo67Cn2Mn3Po9N",
    "o20Cn3Lo16So10Cn6Lu86Cn2Ll6Cn2PdLo620SoPoLo17ZsLo26PsPeCn3Lo75Po3Nl3Lo8Cn7Lo18Mn3McCn9Lo19Mn2",
    "McPo2Cn9Lo18Mn2Cn12Lo13CnLo3CnMn2Cn12Lo52Mn2McMn7Mc8MnMc2Mn11Po3LmPo3ScLoMnCn2Nd10Cn6No10Cn6P",
    "o6PdPo4Mn3CfMnNd10Cn6Lo35LmLo53Cn7Lo5Mn2Lo34MnLoCn5Lo70Cn10Lo31CnMn3Mc4Mn2Mc3Cn4Mc2MnMc6Mn3Cn",
    "4SoCn3Po2Nd10Lo30Cn2Lo5Cn11Lo44Cn4Lo26Cn6Nd10NoCn3So34Lo23Mn2Mc2MnCn2Po2Lo53McMnMcMn7CnMnMcMn",
    "Mc2Mn8Mc6Mn10Cn2MnNd10Cn6Nd10Cn6Po7LmPo6Cn2Mn14MeMn16Cn49Mn4McLo47MnMcMn5McMnMc5MnMc2Lo8CnPo2",
    "Nd10Po7So10Mn9So9Po3Mn2McLo30McMn4Mc2Mn2McMn3Lo2Nd10Lo44MnMcMn2Mc3MnMcMn3Mc2Cn8Po4Lo36Mc8Mn8M",
    "c2Mn2Cn3Po5Nd10Cn3Lo3Nd10Lo30Lm6Po2Ll9LuLlCn5Lu43Cn2Lu3Po8Cn8Mn3PoMn13McMn7Lo4MnLo6MnLo2McMn2",
    "LoCn5Ll44Lm63Ll13LmLl34Lm37Mn64LuLlLuLlLuLlLuLlLuLlLuLlLuLlLuLlLuLlLuLlLuLlLuLlLuLlLuLlLuLlLu",
    "LlLuLlLuLlLuLlLuLlLuLlLuLlLuLlLuLlLuLlLuLlLuLlLuLlLuLlLuLlLuLlLuLlLuLlLuLlLuLlLuLlLuLlLuLlLuL",
    "lLuLlLuLlLuLlLuLlLuLlLuLlLuLlLuLlLuLlLuLlLuLlLuLlLuLlLuLlLuLlLuLlLuLlLuLlLuLlLuLlLuLlLuLlLuLl",
    "LuLlLuLlLuLlLuLlLuLlLuLlLuLlLuLlLuLlLuLlLuLlLuLlLuLl9LuLlLuLlLuLlLuLlLuLlLuLlLuLlLuLlLuLlLuLl",
    "LuLlLuLlLuLlLuLlLuLlLuLlLuLlLuLlLuLlLuLlLuLlLuLlLuLlLuLlLuLlLuLlLuLlLuLlLuLlLuLlLuLlLuLlLuLlL",
    "uLlLuLlLuLlLuLlLuLlLuLlLuLlLuLlLuLlLuLlLuLlLuLlLuLlLuLlLuLlLuLl9Lu8Ll6Cn2Lu6Cn2Ll8Lu8Ll8Lu8Ll",
    "6Cn2Lu6Cn2Ll8CnLuCnLuCnLuCnLuLl8Lu8Ll14Cn2Ll8Lt8Ll8Lt8Ll8Lt8Ll5CnLl2Lu4LtSkLlSk3Ll3CnLl2Lu4Lt",
    "Sk3Ll4Cn2Ll2Lu4CnSk3Ll8Lu5Sk3Cn2Ll3CnLl2Lu4LtSk2CnZs11Cf5Pd6Po2PiPfPsPi2PfPsPiPo8ZlZpCf5ZsPo9",
    "PiPfPo4Pc2Po3SmPsPePo11SmPoPcPo10ZsCf5CnCf10NoLmCn2No6Sm3PsPeLmNo10Sm3PsPeCnLm13Cn3Sc33Cn15Mn",
    "13Me4MnMe3Mn12Cn15So2LuSo4LuSo2LlLu3Ll2Lu3LlSoLuSo2SmLu5So6LuSoLuSoLuSoLu4SoLlLu4LlLo4LlSo2Ll",
    "2Lu2Sm5LuLl4SoSmSo2LlSoNo16Nl35LuLlNl4NoSo2Cn4Sm5So5Sm2So4SmSo2SmSo2SmSo7SmSo31Sm2So2SmSoSmSo",
    "31Sm268So8PsPePsPeSo20Sm2So7PsPeSo81SmSo30Sm25So40Sm6So72Cn22So11Cn21No60So78No22So183SmSo9Sm",
    "So54Sm8So111SmSo248PsPePsPePsPePsPePsPePsPePsPeNo30So44Sm5PsPeSm31PsPePsPePsPePsPePsPeSm16So2",
    "56Sm131PsPePsPePsPePsPePsPePsPePsPePsPePsPePsPePsPeSm63PsPePsPeSm32PsPeSm258So48Sm21So2Sm6So3",
    "9Cn2So32CnSo105Lu48Ll48LuLlLu3Ll2LuLlLuLlLuLlLu4LlLuLl2LuLl6Lm2Lu3LlLuLlLuLlLuLlLuLlLuLlLuLlL",
    "uLlLuLlLuLlLuLlLuLlLuLlLuLlLuLlLuLlLuLlLuLlLuLlLuLlLuLlLuLlLuLlLuLlLuLlLuLlLuLlLuLlLuLlLuLlLu",
    "LlLuLlLuLlLuLlLuLlLuLlLuLlLuLlLuLlLuLlLuLlLuLlLuLlLuLlLuLlLuLlLuLlLuLlLuLlLuLl2So6LuLlLuLlMn3",
    "LuLlCn5Po4NoPo2Ll38CnLlCn5LlCn2Lo56Cn7LmPoCn14MnLo23Cn9Lo7CnLo7CnLo7CnLo7CnLo7CnLo7CnLo7CnLo7",
    "CnMn32Po2PiPfPiPfPo3PiPfPoPiPfPo9PdPo2PdPoPiPfPo2PiPfPsPePsPePsPePsPePo5LmPo10Pd2Po4PdPoPsPo1",
    "3So2Po3PsPePsPePsPePsPePdCn34So26CnSo89Cn12So214Cn26So16ZsPo3SoLmLoNlPsPePsPePsPePsPePsPeSo2P",
    "sPePsPePsPePsPePdPsPe2SoNl9Mn4Mc2PdLm5So2Nl3LmLoPoSo2CnLo86Cn2Mn2Sk2Lm2LoPdLo90PoLm3LoCn5Lo43",
    "CnLo94CnSo2No4So10Lo32So38Cn9SoLo16So31CnNo10So30No8SoNo15So32No10So39No15So320Lo6592So64Lo21",
    "013LmLo1143Cn3So55Cn9Lo40Lm6Po2Lo268LmPo3Lo16Nd10Lo2Cn20LuLlLuLlLuLlLuLlLuLlLuLlLuLlLuLlLuLlL",
    "uLlLuLlLuLlLuLlLuLlLuLlLuLlLuLlLuLlLuLlLuLlLuLlLuLlLuLlLoMnMe3PoMn10PoLmLuLlLuLlLuLlLuLlLuLlL",
    "uLlLuLlLuLlLuLlLuLlLuLlLuLlLuLlLuLlLm2Mn2Lo70Nl10Mn2Po6Cn8Sk23Lm9Sk2LuLlLuLlLuLlLuLlLuLlLuLlL",
    "uLl3LuLlLuLlLuLlLuLlLuLlLuLlLuLlLuLlLuLlLuLlLuLlLuLlLuLlLuLlLuLlLuLlLuLlLuLlLuLlLuLlLuLlLuLlL",
    "uLlLuLlLuLlLuLlLuLlLuLlLuLlLuLlLuLlLmLl8LuLlLuLlLu2LlLuLlLuLlLuLlLuLlLmSk2LuLlLuLlLoLuLlLuLl3",
    "LuLlLuLlLuLlLuLlLuLlLuLlLuLlLuLlLuLlLuLlLu5LlLu5LlLuLlLuLlLuLlLuLlLuLlLuLlLuLlLu4LlLuLlLu2LlC",
    "n2LuLlCnLlCnLlLuLlLuLlLuLlLuCn21Lm3LuLlLoLm2LlLo7MnLo3MnLo4MnLo23Mc2Mn2McSo4MnCn3No6So2ScSoCn",
    "6Lo52Po4Cn8Mc2Lo50Mc16Mn2Cn8Po2Nd10Cn6Mn18Lo6Po3LoPoLo2MnNd10Lo28Mn8Po2Lo23Mn11Mc2Cn11PoLo29C",
    "n3Mn3McLo47MnMc2Mn4Mc2Mn2Mc3Po13CnLmNd10Cn4Po2Lo5MnLmLo9Nd10Lo5CnLo41Mn6Mc2Mn2Mc2Mn2Cn9Lo3MnL",
    "o8MnMcCn2Nd10Cn2Po4Lo16LmLo6So3LoMcMnMcLo50MnLoMn3Lo2Mn2Lo5Mn2LoMnLoCn24Lo2LmPo2Lo11McMn2Mc2P",
    "o2LoLm2McMnCn10Lo6Cn2Lo6Cn2Lo6Cn9Lo7CnLo7CnLl43SkLm4Ll9LmSk2Cn4Ll80Lo35Mc2MnMc2MnMc2PoMcMnCn2",
    "Nd10Cn6Lo11172Cn12Lo23Cn4Lo49Cn4Cs2048Co6400Lo366Cn2Lo106Cn38Ll7Cn12Ll5Cn5LoMnLo10SmLo13CnLo5",
    "CnLoCnLo2CnLo2CnLo108Sk17Cn16Lo363PePsSo16Lo64Cn2Lo54Cn7SoCn32Lo12ScSo3Mn16Po7PsPePoCn6Mn16Po",
    "Pd2Pc2PsPePsPePsPePsPePsPePsPePsPePsPePo2PsPePo4Pc3Po3CnPo4PdPsPePsPePsPePo3SmPdSm3CnPoScPo2C",
    "n4Lo5CnLo135Cn2CfCnPo3ScPo3PsPePoSmPoPdPo2Nd10Po2Sm3Po2Lu26PsPoPeSkPcSkLl26PsSmPeSmPsPePoPsPe",
    "Po2Lo10LmLo45Lm2Lo31Cn3Lo6Cn2Lo6Cn2Lo6Cn2Lo3Cn3Sc2SmSkSoSc2CnSoSm4So2Cn10Cf3So2Cn2Lo12CnLo26C",
    "nLo19CnLo2CnLo15Cn2Lo14Cn34Lo123Cn5Po3Cn4No45Cn3So9Nl53No4So17No2So3CnSo13Cn3SoCn47So45MnCn13",
    "0Lo29Cn3Lo49Cn15MnNo27Cn4Lo32No4Cn9Lo20NlLo8NlCn5Lo38Mn5Cn5Lo30CnPoLo36Cn4Lo8PoNl5Cn42Lu40Ll4",
    "0Lo78Cn2Nd10Cn6Lu36Cn4Ll36Cn4Lo40Cn8Lo52Cn11PoLu11CnLu15CnLu7CnLu2CnLl11CnLl15CnLl7CnLl2Cn3Lo",
    "52Cn12Lo311Cn9Lo22Cn10Lo8Cn24Lm6CnLm42CnLm9Cn69Lo6Cn2LoCnLo44CnLo2Cn3LoCn2Lo23CnPoNo8Lo23So2N",
    "o7Lo31Cn8No9Cn48Lo19CnLo2Cn5No5Lo22No6Cn3PoLo26Cn5PoCn64Lo56Cn4No2Lo2No16Cn2No46LoMn3CnMn2Cn5",
    "Mn4Lo4CnLo3CnLo29Cn2Mn3Cn4MnNo9Cn7Po9Cn7Lo29No2PoLo29No3Cn32Lo8SoLo28Mn2Cn4No5Po7Cn9Lo54Cn3Po",
    "7Lo22Cn2No8Lo19Cn5No8Lo18Cn7Po4Cn12No7Cn80Lo73Cn55Lu51Cn13Ll51Cn7No6Lo36Mn4Cn8Nd10Cn6Nd10Lo4L",
    "mLoLu22Cn3Mn5PdLmLl22Cn8Sm2Cn208No31CnLo42CnMn2PdCn2Lo2Cn16Lo3Cn55Mn4Lo29No10LoCn8Lo22Mn11No4",
    "Po5Cn22Lo18Mn4Po4Cn38Lo21No7Cn20Lo23Cn9McMnMcLo53Mn15Po7Cn4No20Nd10MnLo2Mn2LoCn9Mn3McLo45Mc3M",
    "n4Mc2Mn2Po2CfPo4MnCn10CfCn2Lo25Cn7Nd10Cn6Mn3Lo36Mn5McMn8CnNd10Po4LoMc2LoCn8Lo35MnPo2LoCn9Mn2M",
    "cLo48Mc3Mn9Mc2Lo4Po4Mn4PoMcMnNd10LoPoLoPo3CnNo20Cn11Lo18CnLo25Mc3Mn3Mc2MnMcMn2Po6MnLo2MnCn62L",
    "o7CnLoCnLo4CnLo15CnLo10PoCn6Lo47MnMc3Mn8Cn5Nd10Cn6Mn2Mc2CnLo8Cn2Lo2Cn2Lo22CnLo7CnLo2CnLo5CnMn",
    "2LoMc2MnMc4Cn2Mc2Cn2Mc3Cn2LoCn6McCn5Lo5Mc2Cn2Mn7Cn3Mn5Cn11Lo10CnLoCn2LoCnLo38CnLoMc3Mn6CnMcCn",
    "2McCnMc4CnMc2MnMcMnLoMnLoPo2CnPo2Cn8Mn2Cn29Lo53Mc3Mn8Mc2Mn3McMnLo4Po5Nd10Po2CnPoMnLo3Cn30Lo48",
    "Mc3Mn6McMnMc4Mn2McMn2Lo2PoLoCn8Nd10Cn166Lo47Mc3Mn4Cn2Mc4Mn2McMn2Po23Lo4Mn2Cn34Lo48Mc3Mn8Mc2Mn",
    "McMn2Po3LoCn11Nd10Cn6Po13Cn19Lo43MnMcMnMc2Mn6McMnLoPoCn6Nd10Cn6Nd20Cn28Lo27Cn2MnMcMnMc2Mn4McM",
    "n5Cn4Nd10No2Po3SoLo7Cn185Lo44Mc3Mn9McMn2PoCn100Lu32Ll32Nd10No9Cn12Lo8Cn2LoCn2Lo8CnLo2CnLo24Mc",
    "6CnMc2Cn2Mn2McMnLoMcLoMcMnPo3Cn9Nd10Cn70Lo8Cn2Lo39Mc3Mn4Cn2Mn2Mc4MnLoPoLoMcCn27LoMn10Lo40Mn6M",
    "cLoMn4Po8MnCn8LoMn6Mc2Mn3Lo46Mn13McMn2Po3LoPo5Cn13Lo73Cn7Po10Cn182Lo33PoCn14Nd10Cn6Lo9CnLo37M",
    "cMn7CnMn6McMnLoPo5Cn10Nd10No19Cn3Po2Lo30Cn2Mn22CnMcMn7McMn2McMn2Cn73Lo7CnLo2CnLo38Mn6Cn3MnCnM",
    "n2CnMn7LoMnCn8Nd10Cn6Lo6CnLo2CnLo32Mc5CnMn2CnMc2MnMcMnLoCn7Nd10Cn310Lo19Mn2Mc2Po2Cn7Mn2LoMcLo",
    "13CnLo34Mc2Mn5Cn3Mc2MnMcMnPo13Nd10MnCn85LoCn15No21So8Sc4So17Cn13PoLo922Cn102Nl111CnPo5Cn11Lo1",
    "96Cn2636Lo97Po2Cn13Lo1072Cf16MnLo6Mn15Cn10Lo3995Cn5Lo583Cn6841Lo30Mn12Mc3Mn3Nd10Cn1734Lo569Cn",
    "7Lo31CnNd10Cn4Po2Lo79CnNd10Cn6Lo30Cn2Mn5PoCn10Lo48Mn7Po5So4Lm4PoSoCn10Nd10CnNo7CnLo21Cn5Lo19C",
    "n432Lm3Lo40Lm2Po3Nd10Cn198Lu32Ll32No23Po4Cn101Lo75Cn4MnLoMc55Cn7Mn4Lm13Cn64Lm2PoLmMnCn11Mc2Cn",
    "14Lo6136Cn8Lo1238Cn41Lo10Cn8935Lm4CnLm7CnLm2CnLo291Cn15LoCn29Lo3Cn2LoCn14Lo4Cn8Lo396Cn2308Lo1",
    "07Cn5Lo13Cn3Lo9Cn7Lo10Cn2SoMn2PoCf4Cn3932So240Nd10Cn6So436Cn76Mn46Cn2Mn23Cn9So116Cn60So246Cn1",
    "0So39Cn2So60Mc2Mn3So3Mc6Cf8Mn8So2Mn7So30Mn4So61Cn21So66Mn3SoCn122No20Cn12No20Cn12So87Cn9No25C",
    "n135Lu26Ll26Lu26Ll7CnLl18Lu26Ll26LuCnLu2Cn2LuCn2Lu2Cn2Lu4CnLu8Ll4CnLlCnLl7CnLl11Lu26Ll26Lu2Cn",
    "Lu4Cn2Lu8CnLu7CnLl26Lu2CnLu4CnLu5CnLuCn3Lu7CnLl26Lu26Ll26Lu26Ll26Lu26Ll26Lu26Ll26Lu26Ll26Lu26",
    "Ll28Cn2Lu25SmLl25SmLl6Lu25SmLl25SmLl6Lu25SmLl25SmLl6Lu25SmLl25SmLl6Lu25SmLl25SmLl6LuLlCn2Nd50",
    "So512Mn55So4Mn50So8MnSo14MnSo2Po5Cn15Mn5CnMn15Cn1104Ll10LoLl20Cn6Ll6Cn213Mn7CnMn17Cn2Mn7CnMn2",
    "CnMn5Cn5Lm62Cn33MnCn112Lo45Cn3Mn7Lm7Cn2Nd10Cn4LoSoCn320Lo30MnCn17Lo44Mn4Nd10Cn5ScCn464Lo27LmM",
    "n4Nd10Cn214Lo30Mn2LoNd10Cn4PoCn480Lo7CnLo4CnLo2CnLo15CnLo197Cn2No9Mn7Cn41Lu34Ll34Mn7LmCn4Nd10",
    "Cn4Po2Cn785No59SoNo3ScNo4Cn76No45SoNo15Cn194Lo4CnLo27CnLo2CnLoCn2LoCnLo10CnLo4CnLoCnLoCn6LoCn",
    "4LoCnLoCnLoCnLo3CnLo2CnLoCn2LoCnLoCnLoCnLoCnLoCnLo2CnLoCn2Lo4CnLo7CnLo4CnLo4CnLoCnLo10CnLo17C",
    "n5Lo3CnLo5CnLo17Cn52Sm2Cn270So44Cn4So100Cn12So15Cn2So15CnSo15CnSo37Cn10No13So161Cn56So29Cn13S",
    "o44Cn4So9Cn7So2Cn14So6Cn154So251Sk5So728Cn4So17Cn3So13Cn3So119Cn4So95Cn6So12Cn4SoCn15So12Cn4S",
    "o56Cn8So10Cn6So40Cn8So30Cn2So12Cn4So2Cn62So340Cn12So14Cn2So13Cn3So10Cn5So56Cn7So15Cn2So11Cn6S",
    "o9Cn7So147CnSo92Nd10Cn1030Lo42720Cn32Lo4154Cn6Lo222Cn2Lo5762Cn14Lo7473Cn15Lo622Cn2466Lo542Cn1",
    "506Lo4939Cn5Lo4192Cn711761CfCn30Cf96Cn128Mn240Cn65040Co65534Cn2Co65534Cn2"]

def categoryRuns : List (Nat × Category) :=
  (readRuns 2 0 categoryTable.toList.length categoryTable.toList).map
    fun (start, letters) => (start, Category.ofLetters letters)

def category (c : Char) : Category :=
  valueAt categoryRuns .unassigned c.toNat

/-- The characters of any of the categories. -/
def Category.setOf (cs : List Category) : CharSet :=
  .ofRanges (rangesWhere cs.contains categoryRuns)

end PathRules.Text
