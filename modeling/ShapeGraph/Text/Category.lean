/-!
# General categories of characters

Every code point has one of thirty general categories. The table is kept as a text of runs in
the order of the code points: two letters for the category and the length of the run in
hexadecimal, where a run of one writes no length. `Lx` stands for a run in which upper and lower
case letters take turns, upper case first.

* `Category.of` — the category of a character
* `Category.printable` — whether a character stands for itself in a quoted text
-/

namespace ShapeGraph

inductive Category
  | upper | lower | title | modifierLetter | otherLetter
  | nonspacing | spacing | enclosing
  | decimal | letterNumber | otherNumber
  | connector | dash | opening | closing | initialQuote | finalQuote | otherPunctuation
  | math | currency | modifierSymbol | otherSymbol
  | space | line | paragraph
  | control | format | surrogate | privateUse | unassigned
  deriving DecidableEq, Repr, Inhabited

namespace Category

/-! ## The table -/

/-- The two letters of every category. -/
def names : List (String × Category) :=
  [("Lu", upper), ("Ll", lower), ("Lt", title), ("Lm", modifierLetter), ("Lo", otherLetter),
   ("Mn", nonspacing), ("Mc", spacing), ("Me", enclosing), ("Nd", decimal),
   ("Nl", letterNumber), ("No", otherNumber), ("Pc", connector), ("Pd", dash), ("Ps", opening),
   ("Pe", closing), ("Pi", initialQuote), ("Pf", finalQuote), ("Po", otherPunctuation),
   ("Sm", math), ("Sc", currency), ("Sk", modifierSymbol), ("So", otherSymbol), ("Zs", space),
   ("Zl", line), ("Zp", paragraph), ("Cc", control), ("Cf", format), ("Cs", surrogate),
   ("Co", privateUse), ("Cn", unassigned)]

/-- The runs of all code points, from the first to the last. -/
def table : String :=
  String.join
    ["Cc20ZsPo3ScPo3PsPePoSmPoPdPo2NdaPo2Sm3Po2Lu1aPsPoPeSkPcSkLl1aPsSmPeSmCc21ZsPoSc4SoPoSkSoLoPi",
     "SmCfSoSkSoSmNo2SkLlPo2SkNoLoPfNo3PoLu17SmLu7Ll18SmLl8Lx36LuLl2LxeLuLl2Lx2eLu2LlLuLlLuLl3Lu2L",
     "lLuLlLu2LlLu3Ll2Lu4LlLu2LlLu3Ll3Lu2LlLu2LlLx4Lu2LlLuLl2LuLlLu2LlLu3LlLuLlLu2Ll2LoLuLl3Lo4LuL",
     "tLlLuLtLlLuLtLlLxeLuLl2Lx10LuLl2LuLtLlLuLlLu3LlLx38LuLl7Lu2LlLu2Ll2LuLlLu4LlLx6LuLl45LoLl1bL",
     "m12Sk4LmcSkeLm5Sk7LmSkLmSk11Mn70Lx4LmSkLuLlCn2LmLl3PoLuCn4Sk2LuPoLu3CnLuCnLu2LlLu11CnLu9Ll23",
     "LuLl2Lu3Ll3Lx16LuLl5LuLlSmLuLlLu2Ll2Lu33Ll30Lx22SoMn5Me2Lx36Lu2LlLxaLuLl2Lx60CnLu26Cn2LmPo6L",
     "l29PoPdCn2So2ScCnMn2dPdMnPoMn2PoMn2PoMnCn8Lo1bCn4Lo4Po2CnbCf6Sm3Po2ScPo2So2MnbPoCfPo3Lo20LmL",
     "oaMn15NdaPo4Lo2MnLo63PoLoMn7CfSoMn6Lm2Mn2SoMn4Lo2NdaLo3So2LoPoeCnCfLoMnLo1eMn1bCn2Lo59MnbLoC",
     "neNdaLo21Mn9Lm2SoPo3LmCn2MnSc2Lo16Mn4LmMn9LmMn3LmMn5Cn2PofCnLo19Mn3Cn2PoCnLobCn5Lo18SkLo6CnC",
     "f2Cn6Mn8Lo29LmMn18CfMn20McLo36MnMcMnLoMc3Mn8Mc4MnMc2LoMn7LoaMn2Po2NdaPoLmLofMnMc2CnLo8Cn2Lo2",
     "Cn2Lo16CnLo7CnLoCn3Lo4Cn2MnLoMc3Mn4Cn2Mc2Cn2Mc2MnLoCn8McCn4Lo2CnLo3Mn2Cn2NdaLo2Sc2No6SoScLoP",
     "oMnCn2Mn2McCnLo6Cn4Lo2Cn2Lo16CnLo7CnLo2CnLo2CnLo2Cn2MnCnMc3Mn2Cn4Mn2Cn2Mn3Cn3MnCn7Lo4CnLoCn7",
     "NdaMn2Lo3MnPoCnaMn2McCnLo9CnLo3CnLo16CnLo7CnLo2CnLo5Cn2MnLoMc3Mn5CnMn2McCnMc2MnCn2LoCnfLo2Mn",
     "2Cn2NdaPoScCn7LoMn6CnMnMc2CnLo8Cn2Lo2Cn2Lo16CnLo7CnLo2CnLo5Cn2MnLoMcMnMcMn4Cn2Mc2Cn2Mc2MnCn7",
     "Mn2McCn4Lo2CnLo3Mn2Cn2NdaSoLoNo6CnaMnLoCnLo6Cn3Lo3CnLo4Cn3Lo2CnLoCnLo2Cn3Lo2Cn3Lo3Cn3LocCn4M",
     "c2MnMc2Cn3Mc3CnMc3MnCn2LoCn6McCneNdaNo3So6ScSoCn5MnMc3MnLo8CnLo3CnLo17CnLo10Cn2MnLoMn3Mc4CnM",
     "n3CnMn4Cn7Mn2CnLo3Cn2LoCn2Lo2Mn2Cn2NdaCn7PoNo7SoLoMnMc2PoLo8CnLo3CnLo17CnLoaCnLo5Cn2MnLoMcMn",
     "Mc5CnMnMc2CnMc2Mn2Cn7Mc2Cn6Lo2CnLo2Mn2Cn2NdaCnLo2McCncMn2Mc2Lo9CnLo3CnLo29Mn2LoMc3Mn4CnMc3Cn",
     "Mc3MnLoSoCn4Lo3McNo7Lo3Mn2Cn2NdaNo9SoLo6CnMnMc2CnLo12Cn3Lo18CnLo9CnLoCn2Lo7Cn3MnCn4Mc3Mn3CnM",
     "nCnMc8Cn6NdaCn2Mc2PoCncLo30MnLo2Mn7Cn4ScLo6LmMn8PoNdaPo2Cn25Lo2CnLoCnLo5CnLo18CnLoCnLoaMnLo2",
     "Mn9LoCn2Lo5CnLmCnMn7CnNdaCn2Lo4Cn20LoSo3PofSoPoSo3Mn2So6NdaNoaSoMnSoMnSoMnPsPePsPeMc2Lo8CnLo",
     "24Cn4MneMcMn5PoMn2Lo5MnbCnMn24CnSo8MnSo6CnSo2Po5So4Po2Cn25Lo2bMc2Mn4McMn6McMn2Mc2Mn2LoNdaPo6",
     "Lo6Mc2Mn2Lo4Mn3LoMc3Lo2Mc7Lo3Mn4LodMnMc2Mn2Mc6MnLoMcNdaMc3MnSo2Lu26CnLuCn5LuCn2Ll2bPoLmLl3Lo",
     "149CnLo4Cn2Lo7CnLoCnLo4Cn2Lo29CnLo4Cn2Lo21CnLo4Cn2Lo7CnLoCnLo4Cn2LofCnLo39CnLo4Cn2Lo43Cn2Mn3",
     "Po9No14Cn3Lo10SoaCn6Lu56Cn2Ll6Cn2PdLo26cSoPoLo11ZsLo1aPsPeCn3Lo4bPo3Nl3Lo8Cn7Lo12Mn3McCn9Lo1",
     "3Mn2McPo2Cn9Lo12Mn2CncLodCnLo3CnMn2CncLo34Mn2McMn7Mc8MnMc2MnbPo3LmPo3ScLoMnCn2NdaCn6NoaCn6Po",
     "6PdPo4Mn3CfMnNdaCn6Lo23LmLo35Cn7Lo5Mn2Lo22MnLoCn5Lo46CnaLo1fCnMn3Mc4Mn2Mc3Cn4Mc2MnMc6Mn3Cn4S",
     "oCn3Po2NdaLo1eCn2Lo5CnbLo2cCn4Lo1aCn6NdaNoCn3So22Lo17Mn2Mc2MnCn2Po2Lo35McMnMcMn7CnMnMcMnMc2M",
     "n8Mc6MnaCn2MnNdaCn6NdaCn6Po7LmPo6Cn2MneMeMn10Cn31Mn4McLo2fMnMcMn5McMnMc5MnMc2Lo8Cn3NdaPo7Soa",
     "Mn9So9Po2CnMn2McLo1eMcMn4Mc2Mn2McMn3Lo2NdaLo2cMnMcMn2Mc3MnMcMn3Mc2Cn8Po4Lo24Mc8Mn8Mc2Mn2Cn3P",
     "o5NdaCn3Lo3NdaLo1eLm6Po2Ll9Cn7Lu2bCn2Lu3Po8Cn8Mn3PoMndMcMn7Lo4MnLo6MnLo2McMn2LoCn5Ll2cLm3fLl",
     "dLmLl22Lm25Mn40Lx94LuLl9Lx60LuLl9Lu8Ll6Cn2Lu6Cn2Ll8Lu8Ll8Lu8Ll6Cn2Lu6Cn2Ll8CnLuCnLuCnLuCnLuL",
     "l8Lu8LleCn2Ll8Lt8Ll8Lt8Ll8Lt8Ll5CnLl2Lu4LtSkLlSk3Ll3CnLl2Lu4LtSk3Ll4Cn2Ll2Lu4CnSk3Ll8Lu5Sk3C",
     "n2Ll3CnLl2Lu4LtSk2CnZsbCf5Pd6Po2PiPfPsPi2PfPsPiPo8ZlZpCf5ZsPo9PiPfPo4Pc2Po3SmPsPePobSmPoPcPo",
     "aZsCf5CnCfaNoLmCn2No6Sm3PsPeLmNoaSm3PsPeCnLmdCn3Sc21CnfMndMe4MnMe3MncCnfSo2LuSo4LuSo2LlLu3Ll",
     "2Lu3LlSoLuSo2SmLu5So6LuSoLuSoLuSoLu4SoLlLu4LlLo4LlSo2Ll2Lu2Sm5LuLl4SoSmSo2LlSoNo10Nl23LuLlNl",
     "4NoSo2Cn4Sm5So5Sm2So4SmSo2SmSo2SmSo7SmSo1fSm2So2SmSoSmSo1fSm10cSo8PsPePsPeSo14Sm2So7PsPeSo51",
     "SmSo1eSm19So28Sm6So45Cn19SobCn15No3cSo4eNo16Sob7SmSo9SmSo36Sm8So6fSmSof8PsPePsPePsPePsPePsPe",
     "PsPePsPeNo1eSo2cSm5PsPeSm1fPsPePsPePsPePsPePsPeSm10So100Sm83PsPePsPePsPePsPePsPePsPePsPePsPe",
     "PsPePsPePsPeSm3fPsPePsPeSm20PsPeSm102So30Sm15So2Sm6So27Cn2So20CnSo69Lu30Ll30LuLlLu3Ll2Lx6Lu4",
     "LlLuLl2LuLl6Lm2Lu3LlLx60LuLl2So6Lx4Mn3LuLlCn5Po4NoPo2Ll26CnLlCn5LlCn2Lo38Cn7LmPoCneMnLo17Cn9",
     "Lo7CnLo7CnLo7CnLo7CnLo7CnLo7CnLo7CnLo7CnMn20Po2PiPfPiPfPo3PiPfPoPiPfPo9PdPo2PdPoPiPfPo2PiPfP",
     "sPePsPePsPePsPePo5LmPoaPd2Po4PdPoPsPodSo2Po3PsPePsPePsPePsPePdCn22So1aCnSo59CncSod6Cn1aSocCn",
     "4ZsPo3SoLmLoNlPsPePsPePsPePsPePsPeSo2PsPePsPePsPePsPePdPsPe2SoNl9Mn4Mc2PdLm5So2Nl3LmLoPoSo2C",
     "nLo56Cn2Mn2Sk2Lm2LoPdLo5aPoLm3LoCn5Lo2bCnLo5eCnSo2No4SoaLo20So24CncLo10So1fCnNoaSo1eNo8SoNof",
     "So20NoaSo27NofSo140Lo19c0So40Lo5215LmLo477Cn3So37Cn9Lo28Lm6Po2Lo10cLmPo3Lo10NdaLo2Cn14Lx2eLo",
     "MnMe3PoMnaPoLmLx1cLm2Mn2Lo46NlaMn2Po6Cn8Sk17Lm9Sk2LxcLuLl3Lx3eLmLl8Lx4Lu2LlLx8LmSk2Lx4LoLuLl",
     "LuLl3Lx14Lu5LlLu5LlLxeLu4LlLuLlCn5LuLlCnLlCnLlLx4Cn18Lm3LuLlLoLm2LlLo7MnLo3MnLo4MnLo17Mc2Mn2",
     "McSo4MnCn3No6So2ScSoCn6Lo34Po4Cn8Mc2Lo32Mc10Mn2Cn8Po2NdaCn6Mn12Lo6Po3LoPoLo2MnNdaLo1cMn8Po2L",
     "o17MnbMc2CnbPoLo1dCn3Mn3McLo2fMnMc2Mn4Mc2Mn2Mc3PodCnLmNdaCn4Po2Lo5MnLmLo9NdaLo5CnLo29Mn6Mc2M",
     "n2Mc2Mn2Cn9Lo3MnLo8MnMcCn2NdaCn2Po4Lo10LmLo6So3LoMcMnMcLo32MnLoMn3Lo2Mn2Lo5Mn2LoMnLoCn18Lo2L",
     "mPo2LobMcMn2Mc2Po2LoLm2McMnCnaLo6Cn2Lo6Cn2Lo6Cn9Lo7CnLo7CnLl2bSkLm4Ll9LmSk2Cn4Ll50Lo23Mc2MnM",
     "c2MnMc2PoMcMnCn2NdaCn6Lo2ba4CncLo17Cn4Lo31Cn4Cs800Co1900Lo16eCn2Lo6aCn26Ll7CncLl5Cn5LoMnLoaS",
     "mLodCnLo5CnLoCnLo2CnLo2CnLo6cSk11Cn10Lo16bPePsSo10Lo40Cn2Lo36Cn7SoCn20LocScSo3Mn10Po7PsPePoC",
     "n6Mn10PoPd2Pc2PsPePsPePsPePsPePsPePsPePsPePsPePo2PsPePo4Pc3Po3CnPo4PdPsPePsPePsPePo3SmPdSm3C",
     "nPoScPo2Cn4Lo5CnLo87Cn2CfCnPo3ScPo3PsPePoSmPoPdPo2NdaPo2Sm3Po2Lu1aPsPoPeSkPcSkLl1aPsSmPeSmPs",
     "PePoPsPePo2LoaLmLo2dLm2Lo1fCn3Lo6Cn2Lo6Cn2Lo6Cn2Lo3Cn3Sc2SmSkSoSc2CnSoSm4So2CnaCf3So2Cn2LocC",
     "nLo1aCnLo13CnLo2CnLofCn2LoeCn22Lo7bCn5Po3Cn4No2dCn3So9Nl35No4So11No2So3CnSodCn3SoCn2fSo2dMnC",
     "n82Lo1dCn3Lo31CnfMnNo1bCn4Lo20No4Cn9Lo14NlLo8NlCn5Lo26Mn5Cn5Lo1eCnPoLo24Cn4Lo8PoNl5Cn2aLu28L",
     "l28Lo4eCn2NdaCn6Lu24Cn4Ll24Cn4Lo28Cn8Lo34CnbPoLubCnLufCnLu7CnLu2CnLlbCnLlfCnLl7CnLl2Cn43Lo13",
     "7Cn9Lo16CnaLo8Cn18Lm6CnLm2aCnLm9Cn45Lo6Cn2LoCnLo2cCnLo2Cn3LoCn2Lo17CnPoNo8Lo17So2No7Lo1fCn8N",
     "o9Cn30Lo13CnLo2Cn5No5Lo16No6Cn3PoLo1aCn5PoCn40Lo38Cn4No2Lo2No10Cn2No2eLoMn3CnMn2Cn5Mn4Lo4CnL",
     "o3CnLo1dCn2Mn3Cn4MnNo9Cn7Po9Cn7Lo1dNo2PoLo1dNo3Cn20Lo8SoLo1cMn2Cn4No5Po7Cn9Lo36Cn3Po7Lo16Cn2",
     "No8Lo13Cn5No8Lo12Cn7Po4CncNo7Cn50Lo49Cn37Lu33CndLl33Cn7No6Lo24Mn4Cn8NdaCn126No1fCnLo2aCnMn2P",
     "dCn2Lo2Cn4bMn3Lo1dNoaLoCn8Lo16MnbNo4Po5Cn16Lo12Mn4Po4Cn26Lo15No7Cn14Lo17Cn9McMnMcLo35MnfPo7C",
     "n4No14NdaMnLo2Mn2LoCn9Mn3McLo2dMc3Mn4Mc2Mn2Po2CfPo4MnCnaCfCn2Lo19Cn7NdaCn6Mn3Lo24Mn5McMn8CnN",
     "daPo4LoMc2LoCn8Lo23MnPo2LoCn9Mn2McLo30Mc3Mn9Mc2Lo4Po4Mn4PoMcMnNdaLoPoLoPo3CnNo14CnbLo12CnLo1",
     "9Mc3Mn3Mc2MnMcMn2Po6MnLo2MnCn3eLo7CnLoCnLo4CnLofCnLoaPoCn6Lo2fMnMc3Mn8Cn5NdaCn6Mn2Mc2CnLo8Cn",
     "2Lo2Cn2Lo16CnLo7CnLo2CnLo5CnMn2LoMc2MnMc4Cn2Mc2Cn2Mc3Cn2LoCn6McCn5Lo5Mc2Cn2Mn7Cn3Mn5Cn8bLo35",
     "Mc3Mn8Mc2Mn3McMnLo4Po5NdaPo2CnPoMnLo3Cn1eLo30Mc3Mn6McMnMc4Mn2McMn2Lo2PoLoCn8NdaCna6Lo2fMc3Mn",
     "4Cn2Mc4Mn2McMn2Po17Lo4Mn2Cn22Lo30Mc3Mn8Mc2MnMcMn2Po3LoCnbNdaCn6PodCn13Lo2bMnMcMnMc2Mn6McMnLo",
     "PoCn6NdaCn36Lo1bCn2Mn3Mc2Mn4McMn5Cn4NdaNo2Po3SoLo7Cnb9Lo2cMc3Mn9McMn2PoCn64Lu20Ll20NdaNo9Cnc",
     "Lo8Cn2LoCn2Lo8CnLo2CnLo18Mc6CnMc2Cn2Mn2McMnLoMcLoMcMnPo3Cn9NdaCn46Lo8Cn2Lo27Mc3Mn4Cn2Mn2Mc4M",
     "nLoPoLoMcCn1bLoMnaLo28Mn6McLoMn4Po8MnCn8LoMn6Mc2Mn3Lo2eMndMcMn2Po3LoPo5CndLo49Cn7PoaCnf6Lo9C",
     "nLo25McMn7CnMn6McMnLoPo5CnaNdaNo13Cn3Po2Lo1eCn2Mn16CnMcMn7McMn2McMn2Cn49Lo7CnLo2CnLo26Mn6Cn3",
     "MnCnMn2CnMn7LoMnCn8NdaCn6Lo6CnLo2CnLo20Mc5CnMn2CnMc2MnMcMnLoCn7NdaCn136Lo13Mn2Mc2Po2Cn7Mn2Lo",
     "McLodCnLo22Mc2Mn5Cn3Mc2MnMcMnPodNdaCn56LoCnfNo15So8Sc4So11CndPoLo39aCn66Nl6fCnPo5CnbLoc4Cna4",
     "cLo61Po2CndLo430Cf10MnLo6MnfCnfaaLo247Cn21b9Lo239Cn7Lo1fCnNdaCn4Po2Lo4fCnNdaCn6Lo1eCn2Mn5PoC",
     "naLo30Mn7Po5So4Lm4PoSoCnaNdaCnNo7CnLo15Cn5Lo13Cn2b0Lu20Ll20No17Po4Cn65Lo4bCn4MnLoMc37Cn7Mn4L",
     "mdCn40Lm2PoLmMnCnbMc2CneLo17f8Cn8Lo4d6Cn2aLo9Cn22e7Lm4CnLm7CnLm2CnLo123CnfLoCn1dLo3Cn2LoCneL",
     "o4Cn8Lo18cCn904Lo6bCn5LodCn3Lo9Cn7LoaCn2SoMn2PoCf4Cn125cMn2eCn2Mn17Cn9So74Cn3cSof6CnaSo27Cn2",
     "So3cMc2Mn3So3Mc6Cf8Mn8So2Mn7So1eMn4So3dCn15So42Mn3SoCn7aNo14CncNo14CncSo57Cn9No19Cn87Lu1aLl1",
     "aLu1aLl7CnLl12Lu1aLl1aLuCnLu2Cn2LuCn2Lu2Cn2Lu4CnLu8Ll4CnLlCnLl7CnLlbLu1aLl1aLu2CnLu4Cn2Lu8Cn",
     "Lu7CnLl1aLu2CnLu4CnLu5CnLuCn3Lu7CnLl1aLu1aLl1aLu1aLl1aLu1aLl1aLu1aLl1aLu1aLl1aLu1aLl1cCn2Lu1",
     "9SmLl19SmLl6Lu19SmLl19SmLl6Lu19SmLl19SmLl6Lu19SmLl19SmLl6Lu19SmLl19SmLl6LuLlCn2Nd32So200Mn37",
     "So4Mn32So8MnSoeMnSo2Po5CnfMn5CnMnfCn450LlaLoLl14Cn6Ll6Cnd5Mn7CnMn11Cn2Mn7CnMn2CnMn5Cn5Lm3eCn",
     "21MnCn70Lo2dCn3Mn7Lm7Cn2NdaCn4LoSoCn140Lo1eMnCn11Lo2cMn4NdaCn5ScCn1d0Lo1bLmMn4NdaCn2e6Lo7CnL",
     "o4CnLo2CnLofCnLoc5Cn2No9Mn7Cn29Lu22Ll22Mn7LmCn4NdaCn4Po2Cn311No3bSoNo3ScNo4Cn4cNo2dSoNofCnc2",
     "Lo4CnLo1bCnLo2CnLoCn2LoCnLoaCnLo4CnLoCnLoCn6LoCn4LoCnLoCnLoCnLo3CnLo2CnLoCn2LoCnLoCnLoCnLoCn",
     "LoCnLo2CnLoCn2Lo4CnLo7CnLo4CnLo4CnLoCnLoaCnLo11Cn5Lo3CnLo5CnLo11Cn34Sm2Cn10eSo2cCn4So64CncSo",
     "fCn2SofCnSofCnSo25CnaNodSoa1Cn38So1dCndSo2cCn4So9Cn7So2CneSo6Cn9aSofbSk5So2d8Cn4So11Cn3SodCn",
     "3So77Cn4So5fCn6SocCn4SoCnfSocCn4So38Cn8SoaCn6So28Cn8So1eCn2So2Cn4eSo154CncSoeCn2SodCn3So9Cn7",
     "So2eCnSo7Cn8SoeCn4So9Cn7So9Cn7So93CnSo37Cn25NdaCn406Loa6e0Cn20Lo103aCn6LodeCn2Lo1682CneLo1d3",
     "1Cnc1fLo21eCn5e2Lo134bCn5Lo1060Cnadc51CfCn1eCf60Cn80Mnf0Cnfe10CofffeCn2CofffeCn2"]

/-- The value of a hexadecimal digit in lower case. -/
def hexValue (c : Char) : Nat :=
  if c.isDigit then c.toNat - 48 else c.toNat - 87

/-- One run: the code point where it starts, whether its letters take turns, its category. -/
structure Run where
  start : Nat
  turns : Bool
  category : Category
  deriving Inhabited

/-- The run that two letters stand for. -/
def runOf (start : Nat) (a b : Char) : Run :=
  if b = 'x' then ⟨start, true, upper⟩
  else
    match names.find? fun p => p.1.toList == [a, b] with
    | some p => ⟨start, false, p.2⟩
    | none => ⟨start, false, unassigned⟩

/-- Read the runs, with the run being read, its length so far and its start. -/
def readRuns : List Char → Nat → Option (Char × Char) → Nat → Array Run → Array Run
  | [], start, open?, _, acc =>
    match open? with
    | none => acc
    | some (a, b) => acc.push (runOf start a b)
  | c :: cs, start, open?, length, acc =>
    if c.isUpper then
      match open? with
      | none => readRuns cs start (some (c, ' ')) 0 acc
      | some (a, b) =>
        readRuns cs (start + max length 1) (some (c, ' ')) 0 (acc.push (runOf start a b))
    else
      match open? with
      | none => acc
      | some (a, b) =>
        if b = ' ' then readRuns cs start (some (a, c)) length acc
        else readRuns cs start (some (a, b)) (16 * length + hexValue c) acc

/-- All runs, sorted by their start. -/
def runs : Array Run := readRuns table.toList 0 none 0 #[]

/-- The last run that starts at or before a code point, between two places of the table. -/
def lastRun (n : Nat) : Nat → Nat → Nat → Nat
  | 0, low, _ => low
  | fuel + 1, low, high =>
    if low + 1 < high then
      let middle := (low + high) / 2
      match runs[middle]? with
      | some r => if r.start ≤ n then lastRun n fuel middle high else lastRun n fuel low middle
      | none => low
    else low

/-- The category of a character. -/
def of (c : Char) : Category :=
  match runs[lastRun c.toNat 16 0 runs.size]? with
  | some r => if r.turns && (c.toNat - r.start) % 2 == 1 then lower else r.category
  | none => unassigned

/-! ## Groups of categories -/

def isLetter : Category → Bool
  | upper | lower | title | modifierLetter | otherLetter => true
  | _ => false

def isMark : Category → Bool
  | nonspacing | spacing | enclosing => true
  | _ => false

def isNumber : Category → Bool
  | decimal | letterNumber | otherNumber => true
  | _ => false

def isPunctuation : Category → Bool
  | connector | dash | opening | closing | initialQuote | finalQuote | otherPunctuation => true
  | _ => false

def isSymbol : Category → Bool
  | math | currency | modifierSymbol | otherSymbol => true
  | _ => false

def isSeparator : Category → Bool
  | space | line | paragraph => true
  | _ => false

def isOther : Category → Bool
  | control | format | surrogate | privateUse | unassigned => true
  | _ => false

/-- Whether a character stands for itself in a quoted text: it is visible, or the space, and
does not attach to the character before it. -/
def printable (c : Char) : Bool :=
  match of c with
  | nonspacing | enclosing => false
  | g => c == ' ' || !(g.isOther || g.isSeparator)

end Category

end ShapeGraph
